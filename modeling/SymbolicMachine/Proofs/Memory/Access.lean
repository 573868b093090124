import Mathlib
import SymbolicMachine.Join
import SymbolicMachine.Proofs.Memory.Lift

/-!
# Memory of formulas behaves like memory of bytes

`Buffer.Means` says which bytes a buffer of either form stands for. Every access to a buffer then
means the access of the same name to those bytes, because all of them are made of the operations on
padded lists, and these respect every relation between elements. Writes are refused alike in both
forms (`Outcome`).
-/

namespace SymbolicMachine

/-- Two outcomes agree: their results are related, or one and the same fault refused both. -/
inductive Outcome {α β : Type} (R : α → β → Prop) : Except Fault α → Except Fault β → Prop
  | ok {x : α} {y : β} (h : R x y) : Outcome R (.ok x) (.ok y)
  | error (e : Fault) : Outcome R (.error e) (.error e)

theorem Outcome.map {α β γ δ : Type} {R : α → β → Prop} {S : γ → δ → Prop} {r : Except Fault α}
    {s : Except Fault β} {f : α → γ} {g : β → δ} (h : Outcome R r s)
    (hfg : ∀ x y, R x y → S (f x) (g y)) : Outcome S (r.map f) (s.map g) := by
  cases h with
  | ok h => exact .ok (hfg _ _ h)
  | error e => exact .error e

theorem Outcome.exists_ok {α β : Type} {R : α → β → Prop} {r : Except Fault α} {y : β}
    (h : Outcome R r (.ok y)) : ∃ x, r = .ok x ∧ R x y := by
  cases h with
  | ok h => exact ⟨_, rfl, h⟩

/-! ## Padded lists -/

namespace Padded

variable {α β : Type} {R : α → β → Prop} {x : α} {y : β} {xs : List α} {ys : List β}

theorem rel_rightpad (h : List.Forall₂ R xs ys) (hxy : R x y) (n : Nat) :
    List.Forall₂ R (xs.rightpad n x) (ys.rightpad n y) := by
  have hfill : ∀ m, List.Forall₂ R (List.replicate m x) (List.replicate m y) := by
    intro m
    induction m with
    | zero => exact .nil
    | succ m ih => exact .cons hxy ih
  rw [List.rightpad, List.rightpad, h.length_eq]
  exact List.rel_append h (hfill _)

theorem rel_slice (h : List.Forall₂ R xs ys) (hxy : R x y) (start size : Nat) :
    List.Forall₂ R (slice x xs start size) (slice y ys start size) :=
  rel_rightpad (List.forall₂_take size (List.forall₂_drop start h)) hxy size

theorem rel_overwrite {xs' : List α} {ys' : List β} (h : List.Forall₂ R xs ys) (hxy : R x y)
    (h' : List.Forall₂ R xs' ys') (start : Nat) :
    List.Forall₂ R (overwrite x xs start xs') (overwrite y ys start ys') := by
  rw [overwrite, overwrite, h'.length_eq]
  exact List.rel_append (List.rel_append (rel_rightpad (List.forall₂_take start h) hxy start) h')
    (List.forall₂_drop _ h)

theorem rel_get (h : List.Forall₂ R xs ys) (hxy : R x y) (i : Nat) : R (get x xs i) (get y ys i) := by
  induction h generalizing i with
  | nil => exact hxy
  | cons hhead _ ih =>
    cases i with
    | zero => exact hhead
    | succ i => exact ih i

theorem slice_eq_map (xs : List α) (start size : Nat) :
    slice x xs start size = (List.range size).map fun j => get x xs (start + j) := by
  refine List.ext_getElem (by simp) fun i hi _ => ?_
  have hsize : i < size := by simpa using hi
  have hget := get_slice x xs start size i
  rw [if_pos hsize, get, List.getD_eq_getElem _ _ hi] at hget
  simpa using hget

end Padded

namespace Buffer

variable {ρ : Assignment} {known : Prop} {b b' : Buffer} {bytes bytes' : Bytes}

/-- The formulas for the bytes of the buffer mean the given bytes. -/
def Means (ρ : Assignment) (known : Prop) (b : Buffer) (bytes : Bytes) : Prop :=
  Term.MeansBytes ρ known b.lift bytes

/-- The bytes that a write of `size` bytes leaves, unless it is refused. -/
def written (offset size : Nat) (bytes : Bytes) : Except Fault Bytes :=
  (checkWindow offset size).map fun _ => bytes

/-- A store does not see the tag of a literal. -/
theorem writeWord_of_alike {x y : Word} (h : x.Alike y) (b : Buffer) (offset : Nat) :
    b.writeWord offset x = b.writeWord offset y := by
  unfold writeWord Word.natLit?
  rw [h.1, h.toBytes_eq]

namespace Means

theorem ofBytes (bytes : Bytes) : (Buffer.known bytes).Means ρ known bytes := .lift bytes

/-- A buffer of known bytes means nothing but those. -/
theorem eq_of_known (h : (Buffer.known bytes).Means ρ known bytes') : bytes = bytes' := by
  have hall : List.Forall₂ (fun b c : UInt8 => b = c) bytes bytes' := by
    refine (List.forall₂_map_left_iff.mp h).imp fun b c hbc => ?_
    exact UInt8.toNat_inj.mp (Int.natCast_inj.mp (Option.some.inj hbc.eval))
  rwa [List.forall₂_eq_eq_eq] at hall

/-- Both forms that a buffer with this meaning may have. -/
theorem form (h : b.Means ρ known bytes) :
    b = .known bytes ∨ ∃ terms, b = .symbolic terms ∧ Term.MeansBytes ρ known terms bytes := by
  cases b with
  | known => exact .inl (congrArg _ h.eq_of_known)
  | symbolic terms => exact .inr ⟨terms, rfl, h⟩

theorem length_eq (h : b.Means ρ known bytes) : b.length = bytes.length := by
  rw [← length_lift]
  exact Term.MeansBytes.length_eq h

/-! ## Parts -/

theorem toSymbolic (h : b.Means ρ known bytes) : b.toSymbolic.Means ρ known bytes := h

theorem take (h : b.Means ρ known bytes) (n : Nat) : (b.take n).Means ρ known (bytes.take n) := by
  rw [Means, lift_take]
  exact Term.MeansBytes.take h n

theorem drop (h : b.Means ρ known bytes) (n : Nat) : (b.drop n).Means ρ known (bytes.drop n) := by
  rw [Means, lift_drop]
  exact Term.MeansBytes.drop h n

theorem append (h : b.Means ρ known bytes) (h' : b'.Means ρ known bytes') :
    (b.append b').Means ρ known (bytes ++ bytes') := by
  rw [Means, lift_append]
  exact Term.MeansBytes.append h h'

theorem slice (h : b.Means ρ known bytes) (offset size : Nat) :
    (b.slice offset size).Means ρ known (bytes.slice offset size) := by
  rw [Means, lift_slice]
  exact Padded.rel_slice h (.ofLit 0) offset size

/-! ## Words in memory -/

theorem readField {width : Nat} (h : b.Means ρ known bytes) (offset : Nat) (hw : width ≤ 32) :
    (b.readField offset width).Holds ρ known (bytes.readField offset width) := by
  have hlt := Bytes.readField_lt bytes offset hw
  obtain rfl | ⟨terms, rfl, -⟩ := h.form
  · exact ((Word.means_lit _).congr (Nat.mod_eq_of_lt hlt)).holds
  · exact Word.holds_ofBytes (h.slice offset width) hlt

theorem ofWord {w : Word} {n : Nat} (h : w.Holds ρ known n) :
    (Buffer.ofWord w).Means ρ known (Bytes.ofWord n) := by
  rw [Buffer.ofWord]
  cases hn : w.natLit? with
  | some m =>
    rw [Term.eq_of_natLit? hn h.term.eval]
    exact ofBytes _
  | none => exact h.toBytes

/-! ## Writes -/

theorem overwrite (h : b.Means ρ known bytes) (h' : b'.Means ρ known bytes') (offset : Nat) :
    (b.overwrite offset b').Means ρ known (bytes.overwrite offset bytes') := by
  rw [Means, lift_overwrite]
  exact Padded.rel_overwrite h (.ofLit 0) h' offset

/-- A write that depends on nothing but the window check. -/
theorem of_check {offset size : Nat} (h : b.Means ρ known bytes) :
    Outcome (Means ρ known) (do checkWindow offset size; return b) (written offset size bytes) := by
  rw [written]
  cases checkWindow offset size with
  | ok => exact .ok h
  | error e => exact .error e

theorem writeRange (h : b.Means ρ known bytes) (h' : b'.Means ρ known bytes')
    (offset start size : Nat) :
    Outcome (Means ρ known) (b.writeRange offset b' start size)
      (if size = 0 then .ok bytes
        else written offset size (bytes.writeRange offset bytes' start size)) := by
  rw [Buffer.writeRange, Bytes.writeRange]
  split
  · exact .ok h
  · exact of_check (h.overwrite (h'.slice start size) offset)

/-- A write of all bytes of some formulas. -/
theorem writeAll {terms : List Term} (h : b.Means ρ known bytes)
    (h' : Term.MeansBytes ρ known terms bytes') (hlen : bytes'.length ≠ 0) (offset : Nat) :
    Outcome (Means ρ known) (b.writeRange offset (.symbolic terms) 0 bytes'.length)
      (written offset bytes'.length (bytes.overwrite offset bytes')) := by
  have hsource : (Buffer.symbolic terms).Means ρ known bytes' := h'
  have hwrite := h.writeRange hsource offset 0 bytes'.length
  rwa [if_neg hlen, Bytes.writeRange, if_neg hlen, Bytes.slice,
    Padded.slice_eq_self 0 bytes' rfl] at hwrite

theorem writeWord {w : Word} {n : Nat} (h : b.Means ρ known bytes) (hw : w.Holds ρ known n)
    (offset : Nat) :
    Outcome (Means ρ known) (b.writeWord offset w)
      (written offset wordBytes (bytes.writeWord offset n)) := by
  have hall := h.writeAll (hw.toBytes) (by simp) offset
  rw [Bytes.length_ofWord] at hall
  unfold Buffer.writeWord
  split
  · rw [h.eq_of_known, Term.eq_of_natLit? ‹_› hw.term.eval]
    exact of_check (ofBytes _)
  · exact hall

theorem writeByte {w : Word} {n : Nat} (h : b.Means ρ known bytes) (hw : w.Means ρ known n)
    (offset : Nat) :
    Outcome (Means ρ known) (b.writeByte offset w)
      (written offset 1 (bytes.writeByte offset (.ofNat n))) := by
  have hlow := Term.means_lowByte hw.term
  have hbyte : Term.MeansBytes ρ known [w.lowByte] [UInt8.ofNat n] := .cons hlow .nil
  have hall := h.writeAll hbyte (by simp) offset
  unfold Buffer.writeByte
  split
  · have hn : UInt8.ofNat (n % 256) = UInt8.ofNat n := UInt8.toNat_inj.mp (by simp)
    rw [h.eq_of_known, ← hn, Term.eq_of_natLit? ‹_› hlow.eval]
    exact of_check (ofBytes _)
  · exact hall

end Means

end Buffer

end SymbolicMachine
