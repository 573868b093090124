import Mathlib
import SymbolicMachine.Formula.Operator

/-!
# Integer arithmetic behind the operators

Identities of the bitwise operations and of the remainder, the operations on nonnegative integers
as those of the natural numbers, powers by squaring (`powMod_eq`), and counting the ones of a number
of bounded length (`bitCount_eq`).
-/

namespace SymbolicMachine.Integer

/-! ## Identities -/

@[simp] theorem or_zero (x : Int) : or x 0 = x := by cases x <;> simp [or, without]

@[simp] theorem zero_or (x : Int) : or 0 x = x := by cases x <;> simp [or, without]

@[simp] theorem xor_zero (x : Int) : xor x 0 = x := by cases x <;> simp [xor]

@[simp] theorem zero_xor (x : Int) : xor 0 x = x := by cases x <;> simp [xor]

@[simp] theorem and_zero (x : Int) : and x 0 = 0 := by cases x <;> simp [and, without]

@[simp] theorem zero_and (x : Int) : and 0 x = 0 := by cases x <;> simp [and, without]

@[simp] theorem floorMod_zero (x : Int) : floorMod x 0 = 0 := if_pos rfl

@[simp] theorem zero_floorMod (m : Int) : floorMod 0 m = 0 := by simp [floorMod]

@[simp] theorem floorMod_one (x : Int) : floorMod x 1 = 0 := by simp [floorMod]

@[simp] theorem floorMod_floorMod (x m : Int) : floorMod (floorMod x m) m = floorMod x m := by
  by_cases hm : m = 0
  · simp [hm]
  · simp [floorMod, hm]

/-- By a positive modulus the remainder is the usual one. -/
theorem floorMod_of_pos (x : Int) {m : Int} (hm : 0 < m) : floorMod x m = x % m := by
  rw [floorMod, if_neg hm.ne', Int.fmod_eq_emod_of_nonneg x hm.le]

/-! ## Nonnegative integers -/

theorem floorMod_natCast (m n : Nat) :
    floorMod m n = ((if n = 0 then 0 else m % n : Nat) : Int) := by
  by_cases hn : n = 0
  · simp [hn]
  · rw [if_neg hn, floorMod_of_pos _ (by omega), Int.natCast_emod]

theorem and_natCast (m n : Nat) : and m n = ((m &&& n : Nat) : Int) := rfl

/-- A product of `x` and itself, raised to half of an exponent. -/
private theorem mul_self_pow_half (x m : Int) (n : Nat) :
    (x * x % m) ^ (n / 2) % m = x ^ (2 * (n / 2)) % m := by
  rw [← Int.ModEq, pow_mul, sq]
  exact (Int.mod_modEq _ _).pow _

theorem powMod_eq (x : Int) (n : Nat) (m : Int) : powMod x n m = x ^ n % m := by
  induction n using Nat.strongRecOn generalizing x with
  | ind n ih =>
    rw [powMod]
    by_cases hn : n = 0
    · simp [hn]
    · simp only [if_neg hn]
      rw [ih (n / 2) (by omega), mul_self_pow_half]
      split
      · rw [Nat.mul_div_cancel' (Nat.dvd_of_mod_eq_zero ‹_›)]
      · rw [Int.mul_emod, Int.emod_emod, ← Int.mul_emod, ← pow_succ',
          show 2 * (n / 2) + 1 = n by omega]

theorem countP_range_add {n w : Nat} (h : n < 2 ^ w) (k : Nat) :
    (List.range (w + k)).countP n.testBit = (List.range w).countP n.testBit := by
  have hz : ((List.range k).map (w + ·)).countP n.testBit = 0 := by
    rw [List.countP_eq_zero]
    intro i hi
    obtain ⟨j, -, rfl⟩ := List.mem_map.mp hi
    rw [Nat.testBit_lt_two_pow (h.trans_le (Nat.pow_le_pow_right two_pos (by omega)))]
    exact Bool.false_ne_true
  rw [List.range_add, List.countP_append, hz, Nat.add_zero]

/-- The ones of a number that fits are those at the places of the width. -/
theorem bitCount_eq {n w : Nat} (h : n < 2 ^ w) : bitCount n = (List.range w).countP n.testBit := by
  rw [bitCount]
  rcases le_total (n.log2 + 1) w with hle | hle
  · obtain ⟨k, rfl⟩ := Nat.exists_eq_add_of_le hle
    exact (countP_range_add Nat.lt_log2_self k).symm
  · obtain ⟨k, hk⟩ := Nat.exists_eq_add_of_le hle
    rw [hk]
    exact countP_range_add h k

end SymbolicMachine.Integer

namespace SymbolicMachine.BinaryOp

/-! ## Operators on nonnegative operands -/

theorem eval_shl {m n : Nat} (h : n ≤ 65536) :
    shl.eval m n = some ((m * 2 ^ n : Nat) : Int) := by
  have hn : 0 ≤ (n : Int) ∧ (n : Int) ≤ shiftLimit := ⟨Int.natCast_nonneg n, by exact_mod_cast h⟩
  rw [eval, if_pos hn, Int.toNat_natCast, Nat.one_shiftLeft, Int.natCast_mul]

theorem eval_shr (x : Int) (n : Nat) : shr.eval x n = some (x / 2 ^ n) := by
  rw [eval, if_pos (Int.natCast_nonneg n), Int.toNat_natCast, Int.shiftRight_eq_div_pow]
  norm_cast

theorem eval_shr_natCast (m n : Nat) : shr.eval m n = some ((m / 2 ^ n : Nat) : Int) := by
  rw [eval_shr]
  norm_cast

theorem eval_testBit (m n : Nat) : testBit.eval m n = some ((m.testBit n).toNat : Int) := by
  rw [eval, if_pos (Int.natCast_nonneg n), Int.toNat_natCast]
  cases h : m.testBit n <;> simp [Integer.bit, h]

theorem eval_or (m n : Nat) : or.eval m n = some ((m ||| n : Nat) : Int) := rfl

theorem eval_mod (m n : Nat) :
    mod.eval m n = some ((if n = 0 then 0 else m % n : Nat) : Int) := by
  rw [eval, Integer.floorMod_natCast]

end SymbolicMachine.BinaryOp

namespace SymbolicMachine.ModularOp

/-! ## Modular operators without a case for the modulus zero -/

theorem eval_addMod (x y m : Int) : addMod.eval x y m = some (Integer.floorMod (x + y) m) := by
  by_cases hm : m = 0 <;> simp [eval, hm]

theorem eval_mulMod (x y m : Int) : mulMod.eval x y m = some (Integer.floorMod (x * y) m) := by
  by_cases hm : m = 0 <;> simp [eval, hm]

theorem eval_powMod (x m : Int) (n : Nat) (hm : 0 < m) :
    powMod.eval x n m = some (x ^ n % m) := by
  rw [eval, if_neg hm.ne']
  rw [if_pos ⟨Int.natCast_nonneg n, hm.le⟩, Int.toNat_natCast, Integer.powMod_eq]

end SymbolicMachine.ModularOp
