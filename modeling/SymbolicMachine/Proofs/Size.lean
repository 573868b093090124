import Mathlib
import SymbolicMachine.Formula.Build
import SymbolicMachine.Formula.Worklist

/-!
# Folding does not make formulas larger

Counting with a stack gives the size of the tree (`Term.nodeCount_eq_size`). Every constructor that
folds returns an operand, a literal or the plain formula, so it has at most the nodes of the plain
formula.
-/

namespace SymbolicMachine

open Worklist

/-! ## Counting -/

theorem Term.nodeCount_eq_size (t : Term) : t.nodeCount = t.size := by
  rw [nodeCount, countNodes_eq, totalSize, totalSize, Node.size, Nat.zero_add, Nat.add_zero]

theorem Cond.nodeCount_eq_size (c : Cond) : c.nodeCount = c.size := by
  rw [nodeCount, countNodes_eq, totalSize, totalSize, Node.size, Nat.zero_add, Nat.add_zero]

theorem Term.size_lit (v : Int) : (Term.lit v).size = 1 := by rw [size]

theorem Cond.size_lit (b : Bool) : (Cond.lit b).size = 1 := by rw [size]

/-! ## Terms -/

theorem BinaryOp.eq_lit_of_fold? {op : BinaryOp} {l r t : Term} (h : op.fold? l r = some t) :
    ∃ v, t = .lit v := by
  unfold fold? at h
  split at h
  · obtain ⟨v, -, rfl⟩ := Option.map_eq_some_iff.mp h
    exact ⟨v, rfl⟩
  · cases h

theorem ModularOp.eq_lit_of_fold? {op : ModularOp} {x y m t : Term}
    (h : op.fold? x y m = some t) : ∃ v, t = .lit v := by
  unfold fold? at h
  split at h
  · obtain ⟨v, -, rfl⟩ := Option.map_eq_some_iff.mp h
    exact ⟨v, rfl⟩
  · cases h

/-- An identity leaves an operand or zero. -/
theorem BinaryOp.simplify?_eq_some {op : BinaryOp} {l r t : Term} (h : op.simplify? l r = some t) :
    t = l ∨ t = r ∨ t = .lit 0 := by
  cases op with
  | testBit => cases h
  | mod =>
    simp only [simplify?] at h
    split_ifs at h
    · exact .inr (.inr (Option.some.inj h).symm)
    · split at h
      · split_ifs at h
        exact .inl (Option.some.inj h).symm
      · cases h
  | _ =>
    simp only [simplify?] at h
    split_ifs at h <;> simp [← Option.some.inj h]

namespace Term

theorem size_mkBinary_le (op : BinaryOp) (l r : Term) :
    (mkBinary op l r).size ≤ (binary op l r).size := by
  unfold mkBinary
  cases hf : op.fold? l r with
  | some t =>
    obtain ⟨v, rfl⟩ := op.eq_lit_of_fold? hf
    exact (size_lit v).trans_le (one_le_size _)
  | none =>
    cases hs : op.simplify? l r with
    | none => exact le_rfl
    | some t =>
      change t.size ≤ _
      rw [size]
      obtain rfl | rfl | rfl := op.simplify?_eq_some hs
      · omega
      · omega
      · rw [size_lit]
        omega

theorem size_mkModular_le (op : ModularOp) (x y m : Term) :
    (mkModular op x y m).size ≤ (modular op x y m).size := by
  unfold mkModular
  cases hf : op.fold? x y m with
  | some t =>
    obtain ⟨v, rfl⟩ := op.eq_lit_of_fold? hf
    exact (size_lit v).trans_le (one_le_size _)
  | none =>
    rw [Option.getD_none]
    split_ifs
    · exact (size_lit 0).trans_le (one_le_size _)
    · exact le_rfl

theorem size_mkPopcount_le (t : Term) : (mkPopcount t).size ≤ (popcount t).size := by
  unfold mkPopcount
  cases t.lit?.bind Integer.bitCount? with
  | some v => exact (size_lit v).trans_le (one_le_size _)
  | none => exact le_rfl

theorem size_mkIte_le (c : Cond) (t e : Term) : (mkIte c t e).size ≤ (ite c t e).size := by
  unfold mkIte
  rw [size]
  split
  · split <;> omega
  · split_ifs
    · omega
    · rw [size]

end Term

/-! ## Conditions -/

namespace Cond

theorem one_le_size (c : Cond) : 1 ≤ c.size := by cases c <;> simp [size]

theorem size_mkCompare_le (op : Comparison) (l r : Term) :
    (mkCompare op l r).size ≤ (compare op l r).size := by
  unfold mkCompare
  split
  · exact (size_lit _).trans_le (one_le_size _)
  · split_ifs
    · exact (size_lit _).trans_le (one_le_size _)
    · exact le_rfl

theorem size_mkNot_le (c : Cond) : c.mkNot.size ≤ (not c).size := by
  unfold mkNot
  split
  · exact (size_lit _).trans_le (one_le_size _)
  · rw [size, size]
    omega
  · exact le_rfl

theorem size_mkAnd_le (c d : Cond) : (mkAnd c d).size ≤ (and c d).size := by
  unfold mkAnd
  split_ifs
  · exact (size_lit _).trans_le (one_le_size _)
  · rw [size]
    omega
  · rw [size]
    omega
  · rw [size]
    omega
  · exact le_rfl

theorem size_mkOr_le (c d : Cond) : (mkOr c d).size ≤ (or c d).size := by
  unfold mkOr
  split_ifs
  · exact (size_lit _).trans_le (one_le_size _)
  · rw [size]
    omega
  · rw [size]
    omega
  · rw [size]
    omega
  · exact le_rfl

end Cond

end SymbolicMachine
