import Mathlib
import SymbolicMachine.Proofs.Memory.Write

/-!
# Writes of every kind

A write is a copy, a store of a word or a store of a byte. What becomes of it is decided by its
window before anybody looks at its destination. If it is accepted, it leaves the destination with
the window in place, for each kind and whatever the forms of memory are (`Write.exists_written`).
So a write is refused if and only if it writes something past the end of the addressable memory
(`Write.run_eq_error_iff`).
-/

namespace SymbolicMachine

/-- A write, without the memory that it goes to. -/
inductive Write
  /-- The copy of a part of a source. -/
  | range (offset : Nat) (source : Buffer) (start size : Nat)
  | word (offset : Nat) (w : Word)
  /-- The store of the lowest byte of a word. -/
  | byte (offset : Nat) (w : Word)

namespace Write

def run (b : Buffer) : Write → Except Fault Buffer
  | range offset source start size => b.writeRange offset source start size
  | word offset w => b.writeWord offset w
  | byte offset w => b.writeByte offset w

def offset : Write → Nat
  | range offset _ _ _ | word offset _ | byte offset _ => offset

def size : Write → Nat
  | range _ _ _ size => size
  | word _ _ => wordBytes
  | byte _ _ => 1

/-- What the bytes that are written are taken from. -/
def source : Write → Buffer
  | range _ source _ _ => source
  | word _ w => .symbolic w.toBytes
  | byte _ w => .symbolic [w.lowByte]

/-- The place in the source from which on bytes are written. -/
def start : Write → Nat
  | range _ _ start _ => start
  | word _ _ | byte _ _ => 0

/-- The bytes that are put in place. -/
def window (W : Write) : List Term := (W.source.slice W.start W.size).lift

/-- A word that is stored is a machine word if it is a literal. -/
def InRange : Write → Prop
  | word _ w => ∀ v, w.term = .lit v → 0 ≤ v ∧ v < 2 ^ 256
  | range .. | byte .. => True

end Write

/-! ## The lowest byte -/

/-- Masking with one byte leaves one byte, also of a negative integer. -/
theorem Integer.exists_and_255 (x : Int) : ∃ n < 256, Integer.and x 255 = ((n : Nat) : Int) := by
  cases x with
  | ofNat m => exact ⟨m &&& 255, Nat.and_lt_two_pow m (by decide : 255 < 2 ^ 8), rfl⟩
  | negSucc m =>
    have hand : 255 &&& m < 2 ^ 8 := Nat.and_le_left.trans_lt (by decide)
    exact ⟨without 255 m, Nat.xor_lt_two_pow (by decide) hand, rfl⟩

theorem Term.lt_of_natLit?_lowByte {t : Term} {n : Nat} (h : t.lowByte.natLit? = some n) :
    n < 256 := by
  have hlow : mkBinary .and t (.lit 255) = .lit n := natLit?_eq_some.mp h
  cases t with
  | lit v =>
    obtain ⟨m, hm, hv⟩ := Integer.exists_and_255 v
    have hfold : mkBinary .and (.lit v) (.lit 255) = .lit m := mkBinary_lit (congrArg some hv)
    cases hfold.symm.trans hlow
    exact hm
  | _ => simp [mkBinary, BinaryOp.fold?, BinaryOp.simplify?] at hlow

/-! ## What an accepted write leaves -/

namespace Buffer

variable {b source : Buffer} {bytes : Bytes} {offset start size n : Nat} {w : Word}

theorem writeRange_eq (h : size ≠ 0) :
    b.writeRange offset source start size =
      (checkWindow offset size).map fun _ => b.overwrite offset (source.slice start size) := by
  rw [writeRange, if_neg h]
  cases checkWindow offset size <;> rfl

theorem writeWord_of_known (hn : w.natLit? = some n) :
    (known bytes).writeWord offset w =
      (checkWindow offset wordBytes).map fun _ => known (bytes.writeWord offset n) := by
  unfold writeWord
  rw [hn]
  cases checkWindow offset wordBytes <;> rfl

theorem writeWord_of_unknown (hn : w.natLit? = none) :
    b.writeWord offset w = b.writeRange offset (symbolic w.toBytes) 0 wordBytes := by
  unfold writeWord
  rw [hn]
  cases b <;> rfl

theorem writeByte_of_known (hn : w.lowByte.natLit? = some n) :
    (known bytes).writeByte offset w =
      (checkWindow offset 1).map fun _ => known (bytes.writeByte offset (.ofNat n)) := by
  unfold writeByte
  rw [hn]
  cases checkWindow offset 1 <;> rfl

theorem writeByte_of_unknown (hn : w.lowByte.natLit? = none) :
    b.writeByte offset w = b.writeRange offset (symbolic [w.lowByte]) 0 1 := by
  unfold writeByte
  rw [hn]
  cases b <;> rfl

/-- In known memory the bytes of a word are those that it hands out. -/
theorem lift_known_writeWord (hn : w.natLit? = some n) (hlt : n < 2 ^ 256) :
    (known (bytes.writeWord offset n)).lift =
      Padded.overwrite (.lit 0) bytes.lift offset w.toBytes := by
  rw [Word.toBytes_lit (Term.natLit?_eq_some.mp hn) hlt]
  exact lift_overwrite (known bytes) (known (.ofWord n)) offset

theorem lift_known_writeByte (hn : w.lowByte.natLit? = some n) :
    (known (bytes.writeByte offset (.ofNat n))).lift =
      Padded.overwrite (.lit 0) bytes.lift offset [w.lowByte] := by
  have hbyte : [UInt8.ofNat n].map (fun b => Term.nat b.toNat) = [w.lowByte] := by
    rw [List.map_singleton, UInt8.toNat_ofNat_of_lt' (Term.lt_of_natLit?_lowByte hn),
      show w.lowByte = .lit n from Term.natLit?_eq_some.mp hn]
  rw [← hbyte]
  exact lift_overwrite (known bytes) (known [.ofNat n]) offset

end Buffer

/-- The one thing that a write does if it writes anything. The check of its window decides whether
it is accepted, and then its bytes are in place. -/
theorem Write.exists_written (W : Write) (b : Buffer) (hsize : W.size ≠ 0) :
    ∃ r : Buffer, W.run b = (Buffer.checkWindow W.offset W.size).map (fun _ => r) ∧
      (W.InRange → r.lift = Padded.overwrite (.lit 0) b.lift W.offset W.window) := by
  have hcopy : b.writeRange W.offset W.source W.start W.size = _ := Buffer.writeRange_eq hsize
  have hlift : (b.overwrite W.offset (W.source.slice W.start W.size)).lift =
      Padded.overwrite (.lit 0) b.lift W.offset W.window := Buffer.lift_overwrite ..
  cases W with
  | range offset source start size => exact ⟨_, hcopy, fun _ => hlift⟩
  | word offset w =>
    cases hn : w.natLit? with
    | none => exact ⟨_, (Buffer.writeWord_of_unknown hn).trans hcopy, fun _ => hlift⟩
    | some n =>
      cases b with
      | symbolic terms => exact ⟨_, hcopy, fun _ => hlift⟩
      | known bytes =>
        refine ⟨_, Buffer.writeWord_of_known hn, fun hw => ?_⟩
        have hterm := Term.natLit?_eq_some.mp hn
        have hlt : n < 2 ^ 256 := by exact_mod_cast (hw n hterm).2
        have hlen : w.toBytes.length = wordBytes := by
          rw [Word.toBytes_lit hterm hlt, Bytes.lift, List.length_map, Bytes.length_ofWord]
          rfl
        have hwindow : (word offset w).window = w.toBytes := Padded.slice_eq_self _ _ hlen
        rw [Buffer.lift_known_writeWord hn hlt, hwindow]
        rfl
  | byte offset w =>
    cases hn : w.lowByte.natLit? with
    | none => exact ⟨_, (Buffer.writeByte_of_unknown hn).trans hcopy, fun _ => hlift⟩
    | some n =>
      cases b with
      | symbolic terms => exact ⟨_, hcopy, fun _ => hlift⟩
      | known bytes =>
        exact ⟨_, Buffer.writeByte_of_known hn, fun _ => Buffer.lift_known_writeByte hn⟩

theorem Write.run_of_size_eq_zero {W : Write} (b : Buffer) (h : W.size = 0) : W.run b = .ok b := by
  cases W with
  | range offset source start size => exact if_pos h
  | word offset w | byte offset w => cases h

/-! ## Refusal -/

theorem Buffer.checkWindow_eq (offset size : Nat) :
    checkWindow offset size =
      if offset + size ≤ 2 ^ 32 then .ok ()
      else .error (.offsetOverflow (if offset < 2 ^ 64 ∧ 2 ^ 64 ≤ size then size else offset)) := by
  have hindex : indexLimit = 2 ^ 64 := Nat.one_shiftLeft 64
  have hmemory : memoryLimit = 2 ^ 32 := Nat.one_shiftLeft 32
  unfold checkWindow
  rw [hindex, hmemory]
  split_ifs <;> first | rfl | omega

/-- A write of nothing is never refused, and any other one only for its window. -/
theorem Write.run_eq_error_iff (W : Write) (b : Buffer) (fault : Fault) :
    W.run b = .error fault ↔ 0 < W.size ∧ 2 ^ 32 < W.offset + W.size ∧
      fault = .offsetOverflow
        (if W.offset < 2 ^ 64 ∧ 2 ^ 64 ≤ W.size then W.size else W.offset) := by
  rcases Nat.eq_zero_or_pos W.size with h0 | hpos
  · rw [run_of_size_eq_zero b h0]
    refine iff_of_false (fun h => nomatch h) fun h => ?_
    omega
  · obtain ⟨r, hr, -⟩ := W.exists_written b hpos.ne'
    rw [hr, Buffer.checkWindow_eq]
    by_cases hfits : W.offset + W.size ≤ 2 ^ 32
    · rw [if_pos hfits]
      refine iff_of_false (fun h => nomatch h) fun h => ?_
      omega
    · rw [if_neg hfits]
      refine ⟨fun h => ⟨hpos, by omega, (Except.error.inj h).symm⟩, ?_⟩
      rintro ⟨-, -, rfl⟩
      rfl

end SymbolicMachine
