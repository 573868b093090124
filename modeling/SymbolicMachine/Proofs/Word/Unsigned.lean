import Mathlib
import SymbolicMachine.Word.Arithmetic
import SymbolicMachine.Word.Bitwise
import SymbolicMachine.Proofs.Word.Denotation

/-!
# Unsigned operators are exact

One lemma for each operator without a signed reading, a shift or an index: what the result means,
given what the operands mean. Quotients, remainders, powers and counts of ones are not reduced by
the operators, so that their lemmas also show that they stay in range. Main result:
`unsigned_operators_exact`.
-/

namespace SymbolicMachine.Word

variable {ρ : Assignment} {known : Prop} {x y z : Word} {a b c : Nat}

/-! ## Arithmetic -/

theorem means_add (hx : x.Means ρ known a) (hy : y.Means ρ known b) :
    (x.add y).Means ρ known ((a + b) % 2 ^ 256) := by
  refine (means_wrap (hx.term.binary hy.term rfl)).congr ?_
  rw [← Nat.cast_add, ofInteger_natCast]

theorem means_sub (hx : x.Means ρ known a) (hy : y.Means ρ known b) :
    (x.sub y).Means ρ known ((2 ^ 256 + a - b) % 2 ^ 256) := by
  refine (means_wrap (hx.term.binary hy.term rfl)).congr ?_
  have hb := hy.lt
  rw [ofInteger]
  omega

/-- Negation is subtraction from zero. -/
theorem means_negated (hx : x.Means ρ known a) :
    ((lit 0).sub x).Means ρ known ((2 ^ 256 - a) % 2 ^ 256) :=
  (means_sub (means_lit 0) hx).congr (by rw [Nat.zero_mod, Nat.add_zero])

theorem means_mul (hx : x.Means ρ known a) (hy : y.Means ρ known b) :
    (x.mul y).Means ρ known (a * b % 2 ^ 256) := by
  refine (means_wrap (hx.term.binary hy.term rfl)).congr ?_
  rw [← Nat.cast_mul, ofInteger_natCast]

theorem means_div (hx : x.Means ρ known a) (hy : y.Means ρ known b) :
    (x.div y).Means ρ known (if b = 0 then 0 else a / b) := by
  have h : (x.div y).Means ρ known (a / b) :=
    ⟨hx.term.binary hy.term rfl, (Nat.div_le_self a b).trans_lt hx.lt⟩
  refine h.congr ?_
  split
  · rw [‹b = 0›, Nat.div_zero]
  · rfl

theorem means_rem (hx : x.Means ρ known a) (hy : y.Means ρ known b) :
    (x.rem y).Means ρ known (if b = 0 then 0 else a % b) := by
  constructor
  · refine hx.term.binary hy.term ?_
    by_cases hb : b = 0
    · simp [BinaryOp.eval, hb]
    · rw [BinaryOp.eval, if_neg (by omega), if_neg hb]
      rfl
  · split
    · norm_num
    · exact (Nat.mod_le a b).trans_lt hx.lt

private theorem modular_lt (x : Nat) (hc : c < 2 ^ 256) :
    (if c = 0 then 0 else x % c) < 2 ^ 256 := by
  split
  · norm_num
  · exact (Nat.mod_lt x (by omega)).trans hc

theorem means_addMod (hx : x.Means ρ known a) (hy : y.Means ρ known b) (hz : z.Means ρ known c) :
    (x.addMod y z).Means ρ known (if c = 0 then 0 else (a + b) % c) := by
  refine (means_wrap (hx.term.modular hy.term hz.term (ModularOp.eval_addMod ..))).congr ?_
  rw [← Nat.cast_add, Integer.floorMod_natCast, ofInteger_natCast,
    Nat.mod_eq_of_lt (modular_lt (a + b) hz.lt)]

theorem means_mulMod (hx : x.Means ρ known a) (hy : y.Means ρ known b) (hz : z.Means ρ known c) :
    (x.mulMod y z).Means ρ known (if c = 0 then 0 else a * b % c) := by
  refine ⟨hx.term.modular hy.term hz.term ?_, modular_lt (a * b) hz.lt⟩
  rw [ModularOp.eval_mulMod, ← Nat.cast_mul, Integer.floorMod_natCast]

theorem means_exp (hx : x.Means ρ known a) (hy : y.Means ρ known b) :
    (x.exp y).Means ρ known (a ^ b % 2 ^ 256) := by
  refine ⟨hx.term.modular hy.term (.ofLit wordModulus) ?_, Nat.mod_lt _ (by norm_num)⟩
  rw [ModularOp.eval_powMod _ _ _ (by decide), wordModulus_eq]
  norm_cast

/-! ## Bitwise operators -/

theorem means_and (hx : x.Means ρ known a) (hy : y.Means ρ known b) :
    (x.and y).Means ρ known (a &&& b) :=
  means_masked_of_lt (hx.term.binary hy.term rfl) (Nat.and_lt_two_pow a hy.lt)

theorem means_or (hx : x.Means ρ known a) (hy : y.Means ρ known b) :
    (x.or y).Means ρ known (a ||| b) :=
  means_masked_of_lt (hx.term.binary hy.term rfl) (Nat.or_lt_two_pow hx.lt hy.lt)

theorem means_xor (hx : x.Means ρ known a) (hy : y.Means ρ known b) :
    (x.xor y).Means ρ known (a ^^^ b) :=
  means_masked_of_lt (hx.term.binary hy.term rfl) (Nat.xor_lt_two_pow hx.lt hy.lt)

theorem means_not (hx : x.Means ρ known a) :
    x.not.Means ρ known (a ^^^ (2 ^ 256 - 1)) :=
  means_masked_of_lt (hx.term.binary (.ofLit wordMask) rfl)
    (Nat.xor_lt_two_pow hx.lt (by norm_num))

theorem means_popcount (hx : x.Means ρ known a) :
    x.popcount.Means ρ known ((List.range 256).countP a.testBit) := by
  rw [← Integer.bitCount_eq hx.lt]
  refine ⟨hx.term.popcount rfl, ?_⟩
  have hle : (List.range 256).countP a.testBit ≤ 256 := by
    simpa using List.countP_le_length (p := a.testBit) (l := List.range 256)
  rw [Integer.bitCount_eq hx.lt]
  exact hle.trans_lt (by norm_num)

/-! ## Comparisons -/

theorem means_lt (hx : x.Means ρ known a) (hy : y.Means ρ known b) :
    (x.lt y).Means ρ known (if a < b then 1 else 0) :=
  means_ofCond (.lt_nat hx.term hy.term)

theorem means_gt (hx : x.Means ρ known a) (hy : y.Means ρ known b) :
    (x.gt y).Means ρ known (if b < a then 1 else 0) :=
  means_lt hy hx

theorem means_equation (hx : x.Means ρ known a) (hy : y.Means ρ known b) :
    (x.equation y).Means ρ known (decide (a = b)) :=
  .eq_nat hx.term hy.term

theorem means_eq (hx : x.Means ρ known a) (hy : y.Means ρ known b) :
    (x.eq y).Means ρ known (if a = b then 1 else 0) :=
  means_ofCond (means_equation hx hy)

theorem means_isZero (hx : x.Means ρ known a) :
    x.isZero.Means ρ known (if a = 0 then 1 else 0) :=
  means_ofCond (.eq_nat hx.term (.ofNat 0))

/-! ## All together -/

/-- **Unsigned operators are machine arithmetic.** For words with any formulas and any tags, under
every assignment that gives the formulas machine words as values. -/
theorem unsigned_operators_exact (hx : x.Denotes ρ a) (hy : y.Denotes ρ b) (hz : z.Denotes ρ c) :
    Computes ρ [x, y] (x.add y) ((a + b) % 2 ^ 256) ∧
    Computes ρ [x, y] (x.sub y) ((2 ^ 256 + a - b) % 2 ^ 256) ∧
    Computes ρ [x, y] (x.mul y) (a * b % 2 ^ 256) ∧
    Computes ρ [x, y] (x.div y) (if b = 0 then 0 else a / b) ∧
    Computes ρ [x, y] (x.rem y) (if b = 0 then 0 else a - b * (a / b)) ∧
    Computes ρ [x, y, z] (x.addMod y z) (if c = 0 then 0 else (a + b) % c) ∧
    Computes ρ [x, y, z] (x.mulMod y z) (if c = 0 then 0 else a * b % c) ∧
    Computes ρ [x, y] (x.exp y) (a ^ b % 2 ^ 256) ∧
    Computes ρ [x, y] (x.and y) (a &&& b) ∧
    Computes ρ [x, y] (x.or y) (a ||| b) ∧
    Computes ρ [x, y] (x.xor y) (a ^^^ b) ∧
    Computes ρ [x] x.not (a ^^^ (2 ^ 256 - 1)) ∧
    Computes ρ [x, y] (x.lt y) (if a < b then 1 else 0) ∧
    Computes ρ [x, y] (x.gt y) (if a > b then 1 else 0) ∧
    Computes ρ [x, y] (x.eq y) (if a = b then 1 else 0) ∧
    Computes ρ [x] x.isZero (if a = 0 then 1 else 0) ∧
    Computes ρ [x] x.popcount ((List.range 256).countP a.testBit) := by
  have x1 := hx.means_of_mem (List.mem_singleton_self x)
  have x2 := hx.means_of_mem (show x ∈ [x, y] by simp)
  have y2 := hy.means_of_mem (show y ∈ [x, y] by simp)
  have x3 := hx.means_of_mem (show x ∈ [x, y, z] by simp)
  have y3 := hy.means_of_mem (show y ∈ [x, y, z] by simp)
  have z3 := hz.means_of_mem (show z ∈ [x, y, z] by simp)
  have hrem : a % b = a - b * (a / b) := Nat.mod_eq_sub_mul_div
  refine ⟨(means_add x2 y2).computes, (means_sub x2 y2).computes, (means_mul x2 y2).computes,
    (means_div x2 y2).computes, ?_, (means_addMod x3 y3 z3).computes,
    (means_mulMod x3 y3 z3).computes, (means_exp x2 y2).computes, (means_and x2 y2).computes,
    (means_or x2 y2).computes, (means_xor x2 y2).computes, (means_not x1).computes,
    (means_lt x2 y2).computes, (means_gt x2 y2).computes, (means_eq x2 y2).computes,
    (means_isZero x1).computes, (means_popcount x1).computes⟩
  rw [← hrem]
  exact (means_rem x2 y2).computes

/-- An unknown at the top of the range wraps around, and its sum with itself does not wrap before it
is reduced modulo seven. -/
theorem unsigned_operators_exact_at_top :
    (named "x").Denotes (fun _ => some ((2 ^ 256 - 1 : Nat) : Int)) (2 ^ 256 - 1) ∧
    (lit 7).Denotes (fun _ => some ((2 ^ 256 - 1 : Nat) : Int)) 7 ∧
    Computes (fun _ => some ((2 ^ 256 - 1 : Nat) : Int)) [named "x", named "x"]
      ((named "x").add (named "x")) (2 ^ 256 - 2) ∧
    Computes (fun _ => some ((2 ^ 256 - 1 : Nat) : Int)) [named "x", named "x", lit 7]
      ((named "x").addMod (named "x") (lit 7)) 2 := by
  have hx : (named "x").Denotes (fun _ => some ((2 ^ 256 - 1 : Nat) : Int)) (2 ^ 256 - 1) :=
    ⟨Term.compute_eq_eval _, by norm_num⟩
  have h7 : (lit 7).Denotes (fun _ => some ((2 ^ 256 - 1 : Nat) : Int)) 7 :=
    ((means_lit 7).congr rfl : (lit 7).Means _ False 7).denotes
  obtain ⟨hadd, -, -, -, -, haddMod, -⟩ := unsigned_operators_exact hx hx h7
  exact ⟨hx, h7, hadd, haddMod⟩

end SymbolicMachine.Word
