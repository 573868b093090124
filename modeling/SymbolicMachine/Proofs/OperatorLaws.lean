import Mathlib
import SymbolicMachine.Proofs.Integer
import SymbolicMachine.Proofs.Memory.Host

/-!
# The operators on literals are one integer arithmetic

Bits, shifts and quotients of integers of any sign and size fit together: a bit is what a shift
leaves at its lowest place, the bitwise operators act on bits, bits are all that there is to an
integer (`Integer.eq_of_bit_eq`), and each of the two remainders goes with its quotient. The host
takes amounts and places as indices, and rounds remainders in two steps; the values are the same
(`BinaryOp.hostEval_eq`). Main result: `operators_consistent`.
-/

namespace SymbolicMachine

namespace Integer

variable {x y m : Int} {i n : Nat}

/-! ## Bits -/

/-- A bit is what a shift leaves at the lowest place. -/
theorem and_shiftRight_one (x : Int) (n : Nat) : and (x >>> n) 1 = (bit x n).toInt := by
  cases x with
  | ofNat m =>
    change ((m >>> n &&& 1 : Nat) : Int) = (m.testBit n).toInt
    rw [Nat.and_one_is_mod, Nat.shiftRight_eq_div_pow, Nat.testBit_eq_decide_div_mod_eq]
    rcases Nat.mod_two_eq_zero_or_one (m / 2 ^ n) with h | h <;> rw [h] <;> rfl
  | negSucc m =>
    change ((without 1 (m >>> n) : Nat) : Int) = (!m.testBit n).toInt
    rw [without, Nat.one_and_eq_mod_two, Nat.shiftRight_eq_div_pow,
      Nat.testBit_eq_decide_div_mod_eq]
    rcases Nat.mod_two_eq_zero_or_one (m / 2 ^ n) with h | h <;> rw [h] <;> rfl

/-- At the places that no one of the magnitude reaches stands the sign. -/
theorem bit_of_natAbs_lt (h : x.natAbs < 2 ^ n) : bit x n = decide (x < 0) := by
  cases x with
  | ofNat m =>
    have hbit : m.testBit n = false := Nat.testBit_lt_two_pow h
    rw [bit, hbit, eq_comm, decide_eq_false_iff_not]
    exact (Int.natCast_nonneg m).not_gt
  | negSucc m =>
    have hbit : m.testBit n = false :=
      Nat.testBit_lt_two_pow ((Nat.lt_succ_self m).trans_le (Nat.le_of_lt h))
    rw [bit, hbit, eq_comm, Bool.not_false, decide_eq_true_iff]
    exact Int.negSucc_lt_zero m

/-- A shift past the magnitude leaves the sign. -/
theorem shiftRight_of_natAbs_lt (h : x.natAbs < 2 ^ n) : x >>> n = if x < 0 then -1 else 0 := by
  have hpow : ((2 ^ n : Nat) : Int) = 2 ^ n := by norm_cast
  rw [Int.shiftRight_eq_div_pow]
  split_ifs with hx
  · rw [Int.ediv_eq_iff_of_pos (by positivity)]
    omega
  · exact Int.ediv_eq_zero_of_lt (by omega) (by omega)

/-- Integers with the same bits are the same. -/
theorem eq_of_bit_eq (h : ∀ i, bit x i = bit y i) : x = y := by
  -- far up there are only signs
  have hsign : x < 0 ↔ y < 0 := by
    have hx : x.natAbs < 2 ^ (x.natAbs + y.natAbs) :=
      Nat.lt_two_pow_self.trans_le (Nat.pow_le_pow_right two_pos (Nat.le_add_right _ _))
    have hy : y.natAbs < 2 ^ (x.natAbs + y.natAbs) :=
      Nat.lt_two_pow_self.trans_le (Nat.pow_le_pow_right two_pos (Nat.le_add_left _ _))
    rw [← decide_eq_decide, ← bit_of_natAbs_lt hx, ← bit_of_natAbs_lt hy]
    exact h _
  cases x with
  | ofNat m =>
    cases y with
    | ofNat k => exact congrArg Int.ofNat (Nat.eq_of_testBit_eq h)
    | negSucc k => exact absurd (hsign.mpr (Int.negSucc_lt_zero k)) (Int.natCast_nonneg m).not_gt
  | negSucc m =>
    cases y with
    | ofNat k => exact absurd (hsign.mp (Int.negSucc_lt_zero m)) (Int.natCast_nonneg k).not_gt
    | negSucc k =>
      exact congrArg Int.negSucc (Nat.eq_of_testBit_eq fun i => Bool.not_inj (h i))

/-! ## Remainders -/

theorem abs_tmod_lt (x : Int) (hy : y ≠ 0) : |x.tmod y| < |y| := by
  have hnat := Nat.mod_lt x.natAbs (Int.natAbs_pos.mpr hy)
  rw [← Int.natAbs_tmod] at hnat
  rw [Int.abs_eq_natAbs, Int.abs_eq_natAbs]
  exact_mod_cast hnat

theorem sign_tmod (x y : Int) : x.tmod y = 0 ∨ (x.tmod y).sign = x.sign := by
  have h := Int.sign_tmod x y
  split_ifs at h
  · exact .inl (Int.sign_eq_zero_iff_zero.mp h)
  · exact .inr h

theorem floorMod_modEq (x m : Int) (hm : m ≠ 0) : floorMod x m ≡ x [ZMOD m] := by
  rw [floorMod, if_neg hm, Int.fmod_def, Int.modEq_iff_dvd]
  exact ⟨x.fdiv m, by ring⟩

/-- The remainder lies between zero and the divisor. -/
theorem floorMod_bounds (x : Int) (hm : m ≠ 0) :
    |floorMod x m| < |m| ∧ (floorMod x m = 0 ∨ (floorMod x m).sign = m.sign) := by
  rw [floorMod, if_neg hm]
  rcases lt_or_gt_of_ne hm with hneg | hpos
  · -- by a negative divisor the remainder is that of the opposites, with the opposite sign
    have hopposite : x.fmod m = -(-x).fmod (-m) := by rw [Int.neg_fmod_neg, Int.neg_neg]
    have hlow := Int.fmod_nonneg_of_pos (-x) (neg_pos.mpr hneg)
    have hhigh := Int.fmod_lt_of_pos (-x) (neg_pos.mpr hneg)
    rw [hopposite, abs_neg, abs_of_nonneg hlow, abs_of_neg hneg]
    refine ⟨hhigh, ?_⟩
    rcases hlow.eq_or_lt with h | h
    · exact .inl (by rw [← h, Int.neg_zero])
    · exact .inr (by rw [Int.sign_neg, Int.sign_eq_one_of_pos h, Int.sign_eq_neg_one_of_neg hneg])
  · have hlow := Int.fmod_nonneg_of_pos x hpos
    have hhigh := Int.fmod_lt_of_pos x hpos
    rw [abs_of_nonneg hlow, abs_of_pos hpos]
    refine ⟨hhigh, ?_⟩
    rcases hlow.eq_or_lt with h | h
    · exact .inl h.symm
    · exact .inr (by rw [Int.sign_eq_one_of_pos h, Int.sign_eq_one_of_pos hpos])

/-- The remainder toward zero, and the divisor added to it if that has the other sign. -/
def adjustedMod (x m : Int) : Int :=
  if m = 0 then 0
  else if x.tmod m ≠ 0 ∧ ¬(x.tmod m < 0 ↔ m < 0) then x.tmod m + m
  else x.tmod m

theorem adjustedMod_eq (x m : Int) : adjustedMod x m = floorMod x m := by
  rw [adjustedMod, floorMod]
  by_cases hm : m = 0
  · rw [if_pos hm, if_pos hm]
  rw [if_neg hm, if_neg hm, Int.fmod_eq_tmod]
  by_cases hzero : x.tmod m = 0
  · rw [if_pos (Int.dvd_iff_tmod_eq_zero.mpr hzero), if_neg fun h => h.1 hzero, add_zero]
  · have hneg : x.tmod m < 0 ↔ x < 0 := by
      rw [← Int.sign_eq_neg_one_iff_neg, (sign_tmod x m).resolve_left hzero,
        Int.sign_eq_neg_one_iff_neg]
    rw [if_neg (mt Int.dvd_iff_tmod_eq_zero.mp hzero)]
    split_ifs <;> omega

end Integer

namespace BinaryOp

variable {x y : Int} {n : Nat}

/-! ## Bits and shifts -/

theorem eval_shl_eq (x y : Int) :
    shl.eval x y = if 0 ≤ y ∧ y ≤ 65536 then some (x * 2 ^ y.toNat) else none := by
  rw [eval, Nat.one_shiftLeft, Nat.cast_pow]
  rfl

theorem eval_shr_eq_floor (x : Int) (n : Nat) : shr.eval x n = some ⌊(x : ℚ) / 2 ^ n⌋ := by
  have hfloor := Rat.floor_intCast_div_natCast x (2 ^ n)
  push_cast at hfloor
  rw [eval_shr, hfloor]

/-- Bits of integers with any sign, at places that are not negative. -/
theorem eval_testBit_eq (x : Int) (n : Nat) :
    testBit.eval x n = some (Integer.bit x n).toInt := by
  rw [eval, if_pos (Int.natCast_nonneg n), Int.toNat_natCast]

theorem shr_bind_and_one (x : Int) (n : Nat) :
    (shr.eval x n).bind (and.eval · 1) = testBit.eval x n := by
  rw [eval_testBit_eq, eval, if_pos (Int.natCast_nonneg n), Int.toNat_natCast]
  exact congrArg some (Integer.and_shiftRight_one x n)

/-- Shifts to the right and bits are refused at negative amounts only. -/
theorem guarded_eq_none_iff {v : Int} : (if 0 ≤ y then some v else none) = none ↔ y < 0 := by
  rw [ite_eq_right_iff, imp_iff_not (Option.some_ne_none _), not_le]

theorem eq_of_testBit_eq (h : ∀ n : Nat, testBit.eval x n = testBit.eval y n) : x = y := by
  refine Integer.eq_of_bit_eq fun n => ?_
  have hinj : Function.Injective Bool.toInt := by decide
  have hn := h n
  rw [eval_testBit_eq, eval_testBit_eq, Option.some_inj] at hn
  exact hinj hn

/-! ## Quotients -/

theorem div_rem_mod (x : Int) (hy : y ≠ 0) :
    ∃ q r m : Int, div.eval x y = some q ∧ rem.eval x y = some r ∧ mod.eval x y = some m ∧
      x = y * q + r ∧ (|r| < |y| ∧ (r = 0 ∨ r.sign = x.sign)) ∧
      m ≡ x [ZMOD y] ∧ |m| < |y| ∧ (m = 0 ∨ m.sign = y.sign) :=
  ⟨x.tdiv y, x.tmod y, Integer.floorMod x y, rfl, congrArg some (if_neg hy), rfl,
    (Int.mul_tdiv_add_tmod x y).symm, ⟨Integer.abs_tmod_lt x hy, Integer.sign_tmod x y⟩,
    Integer.floorMod_modEq x y hy, Integer.floorMod_bounds x hy⟩

/-! ## Amounts and places as indices -/

/-- The value of an operator as the host finds it: amounts and places are indices, past which
only the sign of `x` is looked at, and the remainder toward zero is adjusted. -/
def hostEval (op : BinaryOp) (x y : Int) : Option Int :=
  match op with
  | .mod => some (Integer.adjustedMod x y)
  | .shl => ((y.toNat?.bind Host.index?).filter (· ≤ shiftLimit)).map (x * 2 ^ ·)
  | .shr =>
    if y < 0 then none
    else some ((Host.index? y.toNat).elim (if x < 0 then -1 else 0) (x >>> ·))
  | .testBit =>
    if y < 0 then none
    else some ((Host.index? y.toNat).elim (decide (x < 0)) (Integer.bit x)).toInt
  | op => op.eval x y

theorem elim_index? {α : Type} {f : Nat → α} {a : α} (h : 2 ^ 64 ≤ n → a = f n) :
    (Host.index? n).elim a f = f n := by
  rcases Nat.lt_or_ge n (2 ^ 64) with hn | hn
  · rw [Host.index?_of_lt hn]
    rfl
  · rw [Host.index?_of_le hn]
    exact h hn

theorem filter_index? (n : Nat) :
    (Host.index? n).filter (· ≤ shiftLimit) = if n ≤ 65536 then some n else none := by
  rcases Nat.lt_or_ge n (2 ^ 64) with hn | hn
  · rw [Host.index?_of_lt hn, Option.filter_some]
    exact if_congr decide_eq_true_iff rfl rfl
  · rw [Host.index?_of_le hn, if_neg (by omega)]
    rfl

/-- No integer that the host can hold has bits past the indices, where only its sign is left. -/
theorem hostEval_eq (hx : x.natAbs.size ≤ 2 ^ 64) (op : BinaryOp) (y : Int) :
    op.hostEval x y = op.eval x y := by
  have hfar {n : Nat} (h : 2 ^ 64 ≤ n) : x.natAbs < 2 ^ n := Nat.size_le.mp (hx.trans h)
  cases op with
  | mod => exact congrArg some (Integer.adjustedMod_eq x y)
  | shl =>
    rw [hostEval, eval_shl_eq]
    rcases lt_or_ge y 0 with hy | hy
    · obtain ⟨m, rfl⟩ := Int.eq_negSucc_of_lt_zero hy
      exact (if_neg fun h => h.1.not_gt hy).symm
    · lift y to Nat using hy
      have hle : 0 ≤ (y : Int) ∧ (y : Int) ≤ 65536 ↔ y ≤ 65536 := by omega
      change ((Host.index? y).filter (· ≤ shiftLimit)).map (x * 2 ^ ·) = _
      rw [filter_index?, apply_ite (Option.map (x * 2 ^ ·)), if_congr hle rfl rfl]
      rfl
  | shr =>
    rw [hostEval, eval]
    rcases lt_or_ge y 0 with hy | hy
    · rw [if_pos hy, if_neg hy.not_ge]
    · rw [if_neg hy.not_gt, if_pos hy]
      exact congrArg some (elim_index? fun h => (Integer.shiftRight_of_natAbs_lt (hfar h)).symm)
  | testBit =>
    rw [hostEval, eval]
    rcases lt_or_ge y 0 with hy | hy
    · rw [if_pos hy, if_neg hy.not_ge]
    · rw [if_neg hy.not_gt, if_pos hy,
        elim_index? fun h => (Integer.bit_of_natAbs_lt (hfar h)).symm]
  | _ => rfl

end BinaryOp

open BinaryOp ModularOp

/-- **The operators on literals are one two's-complement arithmetic**, on integers of any sign and
size. A shift to the right is a quotient rounded down, and a bit is what it leaves at the lowest
place; neither has a value at a negative amount, and a shift to the left none past its limit too.
The bitwise operators act on bits, which determine an integer. Quotient and remainder toward zero
belong together, the other remainder is congruent and has the sign of the divisor, and all are zero
for the divisor zero; the modular operators are that remainder of the power, sum or product. What
the host finds is this, for all integers whose bits it can count. -/
theorem operators_consistent (x y m : Int) :
    ((∀ n : Nat, shr.eval x n = some ⌊(x : ℚ) / 2 ^ n⌋ ∧
        testBit.eval x n = (shr.eval x n).bind (and.eval · 1)) ∧
      (shr.eval x y = none ↔ y < 0) ∧ (testBit.eval x y = none ↔ y < 0) ∧
      shl.eval x y = if 0 ≤ y ∧ y ≤ 65536 then some (x * 2 ^ y.toNat) else none) ∧
    ((∀ n : Nat, ∃ b c : Bool, testBit.eval x n = some b.toInt ∧ testBit.eval y n = some c.toInt ∧
        (and.eval x y).bind (testBit.eval · n) = some (b && c).toInt ∧
        (or.eval x y).bind (testBit.eval · n) = some (b || c).toInt ∧
        (xor.eval x y).bind (testBit.eval · n) = some (b ^^ c).toInt) ∧
      ((∀ n : Nat, testBit.eval x n = testBit.eval y n) → x = y)) ∧
    ((y ≠ 0 →
        ∃ q r r' : Int, div.eval x y = some q ∧ rem.eval x y = some r ∧ mod.eval x y = some r' ∧
          x = y * q + r ∧ (|r| < |y| ∧ (r = 0 ∨ r.sign = x.sign)) ∧
          r' ≡ x [ZMOD y] ∧ |r'| < |y| ∧ (r' = 0 ∨ r'.sign = y.sign)) ∧
      div.eval x 0 = some 0 ∧ rem.eval x 0 = some 0 ∧ mod.eval x 0 = some 0) ∧
    ((0 < m → ∀ n : Nat, powMod.eval x n m = mod.eval (x ^ n) m) ∧
      addMod.eval x y m = mod.eval (x + y) m ∧ mulMod.eval x y m = mod.eval (x * y) m) ∧
    (x.natAbs.size ≤ 2 ^ 64 → ∀ op : BinaryOp, op.hostEval x y = op.eval x y) := by
  refine ⟨⟨fun n => ⟨eval_shr_eq_floor x n, (shr_bind_and_one x n).symm⟩, guarded_eq_none_iff,
      guarded_eq_none_iff, eval_shl_eq x y⟩, ⟨fun n => ?_, eq_of_testBit_eq⟩,
    ⟨div_rem_mod x, congrArg some (Int.tdiv_zero x), rfl, congrArg some (Integer.floorMod_zero x)⟩,
    ⟨fun hm n => ?_, eval_addMod x y m, eval_mulMod x y m⟩, fun hx op => hostEval_eq hx op y⟩
  · refine ⟨Integer.bit x n, Integer.bit y n, eval_testBit_eq x n, eval_testBit_eq y n, ?_, ?_, ?_⟩
    · rw [← Integer.bit_and]
      exact eval_testBit_eq _ n
    · rw [← Integer.bit_or]
      exact eval_testBit_eq _ n
    · rw [← Integer.bit_xor]
      exact eval_testBit_eq _ n
  · rw [eval_powMod x m n hm, ← Integer.floorMod_of_pos _ hm]
    rfl

/-- A negative integer by a negative one; a shift and a bit at an amount that is no index. -/
theorem operators_consistent_below_zero :
    (∃ q r r' : Int, div.eval (-7) (-3) = some q ∧ rem.eval (-7) (-3) = some r ∧
      mod.eval (-7) (-3) = some r' ∧ -7 = -3 * q + r ∧ r.sign = -1 ∧ r' ≡ -7 [ZMOD -3]) ∧
    powMod.eval (-7) 3 5 = some 2 ∧
    shr.eval (-7) (2 ^ 70) = some (-1) ∧ testBit.eval (-7) (2 ^ 70) = some 1 := by
  have hx : (-7 : Int).natAbs.size ≤ 2 ^ 64 :=
    (Nat.size_le.mpr (by decide : (-7 : Int).natAbs < 2 ^ 3)).trans (by norm_num)
  obtain ⟨-, -, ⟨hquot, -⟩, ⟨hpow, -⟩, -⟩ := operators_consistent (-7) (-3) 5
  obtain ⟨-, -, -, -, hhost⟩ := operators_consistent (-7) (2 ^ 70) 5
  obtain ⟨q, r, r', hq, hr, hm, heq, -, hmod, -⟩ := hquot (by decide)
  refine ⟨⟨q, r, r', hq, hr, hm, heq, ?_, hmod⟩, ?_, ?_, ?_⟩
  · obtain rfl : -1 = r := Option.some_inj.mp hr
    rfl
  · exact (hpow (by decide) 3).trans (by decide)
  · rw [← hhost hx]
    rfl
  · rw [← hhost hx]
    rfl

end SymbolicMachine
