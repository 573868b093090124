import Mathlib
import SymbolicMachine.Integer

/-!
# Digits and the numbers they spell

`digitCount` is the least number of digits that a number fits in (`digitCount_le_iff`), so as many
digits spell the number and do not end in zero. No other digits do so (`digits_ofDigits`).
-/

namespace SymbolicMachine.Integer

variable {bits : Nat}

theorem digitCount_le_iff (hb : 0 < bits) {n k : Nat} :
    digitCount bits n ≤ k ↔ n < 2 ^ (bits * k) := by
  unfold digitCount
  split_ifs with hn
  · rw [hn]
    exact iff_of_true (Nat.zero_le k) (by positivity)
  · rw [← Nat.log2_lt hn, Nat.succ_le_iff, Nat.div_lt_iff_lt_mul hb, Nat.mul_comm]

theorem lt_of_mem_digits {count n d : Nat} (h : d ∈ digits bits count n) : d < 2 ^ bits := by
  obtain ⟨i, -, rfl⟩ := List.mem_map.mp h
  rw [Nat.one_shiftLeft]
  exact Nat.mod_lt _ (by positivity)

/-- The digits of a number spell it. -/
theorem ofDigits_digits_digitCount (hb : 0 < bits) (n : Nat) :
    ofDigits bits (digits bits (digitCount bits n) n) = n := by
  rw [ofDigits_digits, Nat.one_shiftLeft]
  exact Nat.mod_eq_of_lt ((digitCount_le_iff hb).mp le_rfl)

/-- The most significant digit of a number is not zero. -/
theorem getLast?_digits_digitCount (hb : 0 < bits) (n : Nat) :
    (digits bits (digitCount bits n) n).getLast? ≠ some 0 := by
  cases hcount : digitCount bits n with
  | zero => exact fun h => by cases h
  | succ k =>
    have hlow : ¬ n < 2 ^ (bits * k) := fun h => by
      have := (digitCount_le_iff hb).mpr h
      omega
    have hhigh : n < 2 ^ (bits * (k + 1)) := (digitCount_le_iff hb).mp hcount.le
    have hlast : (digits bits (k + 1) n).getLast? = some (n / 2 ^ (bits * k) % 2 ^ bits) := by
      simp [digits, List.range_succ, Nat.shiftRight_eq_div_pow, Nat.one_shiftLeft]
    rw [hlast, Nat.mod_eq_of_lt]
    · intro h
      have hzero : n / 2 ^ (bits * k) = 0 := Option.some.inj h
      exact hlow (Nat.lt_of_div_eq_zero (by positivity) hzero)
    · apply Nat.div_lt_of_lt_mul
      rwa [← pow_add, ← Nat.mul_succ]

theorem ofDigits_eq (bits : Nat) (ds : List Nat) :
    ofDigits bits ds = Nat.ofDigits (2 ^ bits) ds := by
  induction ds with
  | nil => rfl
  | cons d ds ih =>
    rw [ofDigits, ih, Nat.ofDigits_cons, Nat.shiftLeft_eq, Nat.mul_comm]

theorem ofDigits_eq_sum (bits : Nat) (ds : List Nat) :
    ofDigits bits ds = ∑ i ∈ Finset.range ds.length, ds.getD i 0 * 2 ^ (bits * i) := by
  induction ds with
  | nil => rfl
  | cons d ds ih =>
    have hshift : ∀ i, (d :: ds).getD (i + 1) 0 * 2 ^ (bits * (i + 1)) =
        ds.getD i 0 * 2 ^ (bits * i) * 2 ^ bits := by
      intro i
      rw [List.getD_cons_succ, Nat.mul_succ, pow_add, mul_assoc]
    rw [ofDigits, ih, List.length_cons, Finset.sum_range_succ', Nat.shiftLeft_eq, Finset.sum_mul]
    simp only [hshift, List.getD_cons_zero, Nat.mul_zero, pow_zero, Nat.mul_one, Nat.add_comm]

/-- Digits below the base that do not end in zero are the digits of the number that they spell. -/
theorem digits_ofDigits (hb : 0 < bits) {ds : List Nat} (hlt : ∀ d ∈ ds, d < 2 ^ bits)
    (hlast : ds.getLast? ≠ some 0) :
    digits bits (digitCount bits (ofDigits bits ds)) (ofDigits bits ds) = ds := by
  have unique : ∀ l : List Nat, (∀ d ∈ l, d < 2 ^ bits) → l.getLast? ≠ some 0 →
      Nat.digits (2 ^ bits) (ofDigits bits l) = l := by
    intro l hl hl0
    rw [ofDigits_eq]
    refine Nat.digits_ofDigits _ (Nat.one_lt_two_pow hb.ne') l hl fun hne h0 => hl0 ?_
    rw [List.getLast?_eq_some_getLast hne, h0]
  have hdigits := unique _ (fun _ => lt_of_mem_digits)
    (getLast?_digits_digitCount hb (ofDigits bits ds))
  rw [ofDigits_digits_digitCount hb] at hdigits
  exact hdigits.symm.trans (unique ds hlt hlast)

end SymbolicMachine.Integer
