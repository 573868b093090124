import Mathlib
import SymbolicMachine.Proofs.Memory.Write
import SymbolicMachine.Proofs.Word.Shifts

/-!
# What a tag can change

Computation looks at a tag only if it is a window of 32 bytes that put together are the formula of
the word, and the formula is not a literal. That the window gives the formula back does not make its
elements bytes: behind zeros that fold away, the last element is the formula, whatever it is. So a
word has its own bytes if and only if the elements of such a window have bytes as values
(`Word.Faithful`, `Word.faithful_iff`). Words with one formula and faithful tags give the same value
to the operations that look at tags: the right shift, the bytes, and the store of a word.
-/

namespace SymbolicMachine

variable {ρ : Assignment}

/-! ## Putting bytes together -/

namespace Term

/-- Folding of sums is exact: it neither drops a term nor gives one a value. -/
theorem eval_mkAdd (l r : Term) : (mkBinary .add l r).eval ρ = (binary .add l r).eval ρ := by
  unfold mkBinary BinaryOp.fold?
  split
  · rfl
  · simp only [BinaryOp.simplify?]
    split_ifs with hl hr
    · simp [hl, eval, BinaryOp.eval]
    · simp [hr, eval, BinaryOp.eval]
    · rfl

theorem eval_mkMul_256 (t : Term) :
    (mkBinary .mul t (.lit 256)).eval ρ = (binary .mul t (.lit 256)).eval ρ := by
  cases t with
  | lit v => rfl
  | _ => rfl

/-- Taking in one more byte. -/
theorem eval_shiftIn (high byte : Term) :
    (high * .lit 256 + byte).eval ρ = do
      let h ← high.eval ρ
      let b ← byte.eval ρ
      return h * 256 + b := by
  change (mkBinary .add (mkBinary .mul high (.lit 256)) byte).eval ρ = _
  rw [eval_mkAdd, eval, eval_mkMul_256, eval]
  cases high.eval ρ <;> rfl

/-- The value of bytes put together depends on nothing but the values of the bytes. -/
theorem compute_ofBytes_congr {xs ys : List Term}
    (h : xs.map (Term.compute ρ) = ys.map (Term.compute ρ)) :
    (ofBytes xs).compute ρ = (ofBytes ys).compute ρ := by
  have hall : List.Forall₂ (fun s t : Term => s.eval ρ = t.eval ρ) xs ys := by
    rw [← List.forall₂_eq_eq_eq, List.forall₂_map_left_iff, List.forall₂_map_right_iff] at h
    simpa only [compute_eq_eval] using h
  clear h
  suffices hacc : ∀ high high' : Term, high.eval ρ = high'.eval ρ →
      (xs.foldl (fun high byte => high * .lit 256 + byte) high).eval ρ =
        (ys.foldl (fun high byte => high * .lit 256 + byte) high').eval ρ by
    rw [compute_eq_eval, compute_eq_eval]
    exact hacc _ _ rfl
  -- what has been taken in so far may be two formulas, as long as they have one value
  induction hall with
  | nil => exact fun _ _ hhigh => hhigh
  | cons ht _ ih =>
    intro high high' hhigh
    refine ih _ _ ?_
    rw [eval_shiftIn, eval_shiftIn, hhigh, ht]

/-- Zeros in front of bytes fold away. -/
theorem ofBytes_zeros_append (n : Nat) (bytes : List Term) :
    ofBytes (List.replicate n (.lit 0) ++ bytes) = ofBytes bytes := by
  induction n with
  | zero => rfl
  | succ n ih => exact ih

theorem ofBytes_zeros (n : Nat) : ofBytes (List.replicate n (.lit 0)) = .lit 0 := by
  rw [← List.append_nil (List.replicate n _), ofBytes_zeros_append]
  rfl

theorem ofBytes_singleton (t : Term) : ofBytes [t] = t := by
  cases t with
  | lit v => exact congrArg lit (Int.zero_add v)
  | _ => rfl

end Term

namespace Word

variable {w x y : Word} {n : Nat}

/-- A tag that computation may look at holds bytes. -/
def Faithful (ρ : Assignment) (w : Word) : Prop := ¬ w.term.isLit → w.ByteTagged ρ

theorem faithful_ofTerm (t : Term) : (ofTerm t).Faithful ρ := fun _ _ hw => nomatch hw

theorem Denotes.holds (h : w.Denotes ρ n) (hf : w.Faithful ρ) (hl : ¬ w.term.isLit) :
    w.Holds ρ False n :=
  ⟨h.means False.elim, hf hl⟩

theorem Denotes.of_term_eq (h : x.Denotes ρ n) (hxy : x.term = y.term) : y.Denotes ρ n :=
  ⟨hxy ▸ h.compute, h.lt⟩

/-- Words with a faithful tag have the bytes of their value. -/
theorem Denotes.toBytes (h : w.Denotes ρ n) (hf : w.Faithful ρ) :
    Term.MeansBytes ρ False w.toBytes (Bytes.ofWord n) := by
  by_cases hl : w.term.isLit
  · have hw : w.Means ρ True n := h.means fun _ => hl
    rw [toBytes_lit (hw.term.lit trivial) h.lt]
    exact .lift _
  · exact (h.holds hf hl).toBytes

/-- **A tag is faithful if and only if the word has its own bytes.** -/
theorem faithful_iff (h : w.Denotes ρ n) :
    w.Faithful ρ ↔
      w.toBytes.map (Term.compute ρ) = (ofTerm w.term).toBytes.map (Term.compute ρ) := by
  have huntagged : (ofTerm w.term).Denotes ρ n := h.of_term_eq rfl
  have hown := (huntagged.toBytes (faithful_ofTerm _)).map_compute
  constructor
  · intro hf
    rw [hown, (h.toBytes hf).map_compute]
  · intro heq hl window hw t ht
    have hbytes : w.toBytes = window := by rw [toBytes_of_not_isLit hl, hw, Option.getD_some]
    rw [hown, hbytes] at heq
    have hmem : t.compute ρ ∈ window.map (Term.compute ρ) := List.mem_map_of_mem ht
    rw [heq] at hmem
    obtain ⟨b, -, hb⟩ := List.mem_map.mp hmem
    exact ⟨b.toNat, b.toNat_lt, hb.symm⟩

/-! ## Words with one formula -/

theorem Alike.shiftRight_eq (h : x.Alike y) (z : Word) : x.shiftRight z = y.shiftRight z := by
  by_cases hl : x.term.isLit
  · have hl' : y.term.isLit := h.1 ▸ hl
    rw [shiftRight, shiftRight, shiftWindow?, shiftWindow?, if_pos hl, if_pos hl', h.1]
  · rw [h.2 hl]

/-- The word without its tag if its formula is a literal. -/
def plain (w : Word) : Word := if w.term.isLit then ofTerm w.term else w

theorem term_plain (w : Word) : w.plain.term = w.term := by
  unfold plain
  split <;> rfl

theorem alike_plain (w : Word) : w.Alike w.plain := by
  refine ⟨w.term_plain.symm, fun hl => ?_⟩
  rw [plain, if_neg hl]

theorem Denotes.holds_plain (h : w.Denotes ρ n) (hf : w.Faithful ρ) : w.plain.Holds ρ False n := by
  by_cases hl : w.term.isLit
  · rw [plain, if_pos hl]
    exact (h.means False.elim).untagged.holds
  · rw [plain, if_neg hl]
    exact h.holds hf hl

/-- A right shift that is found in a window has the value that any word with the formula has. -/
theorem compute_shiftRight_of_window {z r : Word} (hxy : x.term = y.term) (hx : x.Denotes ρ n)
    (fx : x.Faithful ρ) (fy : y.Faithful ρ) (h : x.shiftWindow? z = some r) :
    (x.shiftRight z).term.compute ρ = (y.shiftRight z).term.compute ρ := by
  obtain ⟨hl, k, -, hk, hz, -⟩ := shiftWindow?_eq_some_iff.mp h
  have hy := hx.of_term_eq hxy
  have hamount : z.Means ρ False (8 * k) := ⟨hz ▸ .ofNat (8 * k), by omega⟩
  have hvx := (holds_shiftRight (hx.holds fx hl) hamount).denotes.compute
  have hvy := (holds_shiftRight (hy.holds fy (hxy ▸ hl)) hamount).denotes.compute
  rw [hvx, hvy]

/-- The right shift by any amount, known or not. -/
theorem compute_shiftRight_eq (hxy : x.term = y.term) (hx : x.Denotes ρ n) (fx : x.Faithful ρ)
    (fy : y.Faithful ρ) (z : Word) :
    (x.shiftRight z).term.compute ρ = (y.shiftRight z).term.compute ρ := by
  have hy := hx.of_term_eq hxy
  cases h : x.shiftWindow? z with
  | some r => exact compute_shiftRight_of_window hxy hx fx fy h
  | none =>
    cases h' : y.shiftWindow? z with
    | some r => exact (compute_shiftRight_of_window hxy.symm hy fy fx h').symm
    | none => rw [shiftRight, shiftRight, h, h', hxy]

/-! ## A window of no bytes -/

/-- A tag is looked at if it is long enough and agrees with the formula. -/
theorem window?_of_eq {window : List Term} (hlen : window.length = 32) :
    (Word.mk (.bytes window) (.ofBytes window)).window? = some window := by
  simp [window?, Origin.bytes?, hlen, wordBytes]

/-- The window that passes any formula off as a byte. -/
def disguise (t : Term) : List Term := List.replicate 31 (.lit 0) ++ [t]

theorem window?_disguise (t : Term) :
    (Word.mk (.bytes (disguise t)) t).window? = some (disguise t) := by
  have hterm : .ofBytes (disguise t) = t := by
    rw [disguise, Term.ofBytes_zeros_append, Term.ofBytes_singleton]
  have hlen : (disguise t).length = 32 := by
    rw [disguise, List.length_append, List.length_replicate, List.length_singleton]
  have h := window?_of_eq hlen
  rwa [hterm] at h

/-- Shifted right by a byte, such a window leaves zero. -/
theorem term_shiftRight_disguise {t : Term} (hl : ¬ t.isLit) :
    ((Word.mk (.bytes (disguise t)) t).shiftRight (lit 8)).term = .lit 0 := by
  have hshift : (Word.mk (.bytes (disguise t)) t).shiftWindow? (lit 8) =
      some (ofBytes (Padded.moved (.lit 0) (disguise t) 1)) :=
    shiftWindow?_eq_some_iff.mpr ⟨hl, 1, _, by norm_num, rfl, window?_disguise t, rfl⟩
  rw [shiftRight, hshift, Option.getD_some]
  exact Term.ofBytes_zeros 32

theorem toBytes_disguise {t : Term} (hl : ¬ t.isLit) :
    (Word.mk (.bytes (disguise t)) t).toBytes = disguise t := by
  rw [toBytes_of_not_isLit hl, window?_disguise, Option.getD_some]

end Word

/-! ## Stores -/

namespace Buffer

variable {a b : Buffer} {x y : Word} {n : Nat}

/-- Wherever a byte or a word is read, both buffers give formulas with one value. -/
structure ReadsAlike (ρ : Assignment) (a b : Buffer) : Prop where
  length : a.length = b.length
  readByte : ∀ p, (a.readByte p).compute ρ = (b.readByte p).compute ρ
  readWord : ∀ p, (a.readWord p).term.compute ρ = (b.readWord p).term.compute ρ

theorem ReadsAlike.of_lift
    (h : a.lift.map (Term.compute ρ) = b.lift.map (Term.compute ρ)) : ReadsAlike ρ a b := by
  refine ⟨?_, fun p => ?_, fun p => ?_⟩
  · rw [← length_lift, ← length_lift, ← List.length_map (Term.compute ρ), h, List.length_map]
  · rw [readByte_eq, readByte_eq, ← Padded.get_map (Term.compute ρ),
      ← Padded.get_map (Term.compute ρ), h]
  · rw [Buffer.readWord, Buffer.readWord, term_readField a p (by decide),
      term_readField b p (by decide)]
    apply Term.compute_ofBytes_congr
    rw [Padded.map_slice, Padded.map_slice, h]

theorem readsAlike_ofWord (hxy : x.term = y.term) (hx : x.Denotes ρ n) (fx : x.Faithful ρ)
    (fy : y.Faithful ρ) : ReadsAlike ρ (ofWord x) (ofWord y) := by
  have hy := hx.of_term_eq hxy
  apply ReadsAlike.of_lift
  rw [lift_ofWord (hx.means False.elim : x.Means ρ False n),
    lift_ofWord (hy.means False.elim : y.Means ρ False n), (hx.toBytes fx).map_compute,
    (hy.toBytes fy).map_compute]

theorem writeWord_of_not_isLit (hl : ¬ x.term.isLit) (b : Buffer) (offset : Nat) :
    b.writeWord offset x = b.writeRange offset (.symbolic x.toBytes) 0 wordBytes := by
  unfold writeWord
  split
  · exact absurd (Term.isLit_iff.mpr ⟨_, Term.natLit?_eq_some.mp ‹_›⟩) hl
  · rfl

/-- A store into any buffer, at any place: both words are refused with the same fault, or whatever
is read afterwards has one value. -/
theorem readsAlike_writeWord (hxy : x.term = y.term) (hx : x.Denotes ρ n) (fx : x.Faithful ρ)
    (fy : y.Faithful ρ) (b : Buffer) (offset : Nat) :
    Outcome (ReadsAlike ρ) (b.writeWord offset x) (b.writeWord offset y) := by
  by_cases hl : x.term.isLit
  · have hlike : x.Alike y := ⟨hxy, fun h => absurd hl h⟩
    rw [writeWord_of_alike hlike]
    cases b.writeWord offset y with
    | ok r => exact .ok (.of_lift rfl)
    | error e => exact .error e
  · have hy := hx.of_term_eq hxy
    rw [writeWord_of_not_isLit hl, writeWord_of_not_isLit (hxy ▸ hl), writeRange, writeRange,
      if_neg (by decide), if_neg (by decide)]
    cases checkWindow offset wordBytes with
    | error e => exact .error e
    | ok =>
      refine .ok (.of_lift ?_)
      rw [lift_overwrite, lift_overwrite, lift_slice, lift_slice, Padded.map_overwrite,
        Padded.map_overwrite, Padded.map_slice, Padded.map_slice, lift, lift,
        (hx.toBytes fx).map_compute, (hy.toBytes fy).map_compute]

end Buffer

end SymbolicMachine
