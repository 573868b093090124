import Mathlib
import SymbolicMachine.Word.Arithmetic
import SymbolicMachine.Word.Bitwise
import SymbolicMachine.Proofs.Word.Denotation

/-!
# Signed operators are exact

The two's-complement reading of a machine word is `signed`, and `ofInteger` goes back. Quotient and
remainder round toward zero, shifts round toward negative infinity, and the sign extension is given
bit by bit (`testBit_signExtended`). Main result: `signed_operators_exact`.
-/

namespace SymbolicMachine.Word

variable {ρ : Assignment} {known : Prop} {x y : Word} {a b : Nat}

/-- The two's-complement reading of a machine word. -/
def signed (n : Nat) : Int := if n < 2 ^ 255 then n else n - 2 ^ 256

theorem signed_eq_zero (ha : a < 2 ^ 256) : signed a = 0 ↔ a = 0 := by
  unfold signed
  split <;> omega

theorem means_toSigned {t : Term} (h : t.Means ρ known (a : Int)) :
    t.toSigned.Means ρ known (signed a) := by
  have negative : (Cond.mkGe t (.lit signBit)).Means ρ known (decide (2 ^ 255 ≤ a)) :=
    .le_nat ((Term.Means.ofLit signBit).congr signBit_eq) h
  apply Term.Means.ite negative
  · intro hb
    have hle : 2 ^ 255 ≤ a := of_decide_eq_true hb
    rw [signed, if_neg hle.not_gt]
    exact h.binary (.ofLit wordModulus) rfl
  · intro hb
    have hlt : ¬ 2 ^ 255 ≤ a := of_decide_eq_false hb
    rwa [signed, if_pos (not_le.mp hlt)]

/-! ## Division and comparison -/

theorem means_sdiv (hx : x.Means ρ known a) (hy : y.Means ρ known b) :
    (x.sdiv y).Means ρ known (if b = 0 then 0 else ofInteger ((signed a).tdiv (signed b))) := by
  refine (means_wrap ((means_toSigned hx.term).binary (means_toSigned hy.term) rfl)).congr ?_
  split
  · rw [(signed_eq_zero hy.lt).mpr ‹_›, Int.tdiv_zero]
    rfl
  · rfl

theorem means_smod (hx : x.Means ρ known a) (hy : y.Means ρ known b) :
    (x.smod y).Means ρ known (if b = 0 then 0 else ofInteger ((signed a).tmod (signed b))) := by
  refine (means_wrap ((means_toSigned hx.term).binary (means_toSigned hy.term) rfl)).congr ?_
  by_cases hb : b = 0
  · rw [if_pos hb, if_pos ((signed_eq_zero hy.lt).mpr hb)]
    rfl
  · rw [if_neg hb, if_neg (mt (signed_eq_zero hy.lt).mp hb)]

theorem means_slt (hx : x.Means ρ known a) (hy : y.Means ρ known b) :
    (x.slt y).Means ρ known (if signed a < signed b then 1 else 0) :=
  means_ofCond (.compare (means_toSigned hx.term) (means_toSigned hy.term))

theorem means_sgt (hx : x.Means ρ known a) (hy : y.Means ρ known b) :
    (x.sgt y).Means ρ known (if signed b < signed a then 1 else 0) :=
  means_slt hy hx

/-! ## Shifting with the sign -/

theorem means_sshiftRight (hx : x.Means ρ known a) (hy : y.Means ρ known b) :
    (x.sshiftRight y).Means ρ known (ofInteger (signed a / 2 ^ b)) :=
  means_wrap ((means_toSigned hx.term).binary hy.term (BinaryOp.eval_shr ..))

theorem signed_bounds (ha : a < 2 ^ 256) : -2 ^ 255 ≤ signed a ∧ signed a < 2 ^ 255 := by
  unfold signed
  split <;> omega

/-- Shifts by the width or more leave nothing but copies of the sign. -/
theorem ofInteger_signed_div (ha : a < 2 ^ 256) (hb : 256 ≤ b) :
    ofInteger (signed a / 2 ^ b) = if signed a < 0 then 2 ^ 256 - 1 else 0 := by
  have hpow : (2 : Int) ^ 256 ≤ 2 ^ b := pow_le_pow_right₀ (by norm_num) hb
  obtain ⟨hlow, hhigh⟩ := signed_bounds ha
  generalize (2 : Int) ^ b = m at hpow
  split
  · have hq : signed a / m = -1 := by
      rw [Int.ediv_eq_iff_of_pos (by omega)]
      omega
    rw [hq]
    rfl
  · rw [Int.ediv_eq_zero_of_lt (by omega) (by omega)]
    rfl

/-! ## Sign extension -/

/-- The word whose bits from the top of byte `b` on are copies of that byte's sign. -/
def signExtended (a b : Nat) : Nat :=
  if a.testBit ((b + 1) * 8 - 1) then
    a % 2 ^ ((b + 1) * 8) ||| (2 ^ 256 - 1) ^^^ (2 ^ ((b + 1) * 8) - 1)
  else a % 2 ^ ((b + 1) * 8)

theorem testBit_signExtended {i : Nat} (hb : b < 31) (hi : i < 256) :
    (signExtended a b).testBit i =
      if i < 8 * (b + 1) then a.testBit i else a.testBit (8 * b + 7) := by
  have hk : (b + 1) * 8 - 1 = 8 * b + 7 := by omega
  rw [signExtended, hk]
  split
  · rw [Nat.testBit_or, Nat.testBit_xor, Nat.testBit_mod_two_pow, Nat.testBit_two_pow_sub_one,
      Nat.testBit_two_pow_sub_one]
    by_cases h : i < 8 * (b + 1)
    · simp [h, hi, show i < (b + 1) * 8 by omega]
    · simp [h, hi, show ¬ i < (b + 1) * 8 by omega, ‹a.testBit (8 * b + 7) = true›]
  · rw [Nat.testBit_mod_two_pow]
    by_cases h : i < 8 * (b + 1)
    · simp [h, show i < (b + 1) * 8 by omega]
    · simp [h, show ¬ i < (b + 1) * 8 by omega, ‹¬ a.testBit (8 * b + 7) = true›]

theorem signExtended_lt (hb : b < 31) : signExtended a b < 2 ^ 256 := by
  have hle : 2 ^ ((b + 1) * 8) ≤ 2 ^ 256 := Nat.pow_le_pow_right two_pos (by omega)
  have hlow : a % 2 ^ ((b + 1) * 8) < 2 ^ 256 :=
    (Nat.mod_lt _ (by positivity)).trans_le hle
  unfold signExtended
  split
  · exact Nat.or_lt_two_pow hlow (Nat.xor_lt_two_pow (by norm_num) (by omega))
  · exact hlow

/-- The number whose lowest `n` bits are ones. -/
theorem means_lowMask {width : Term} {n : Nat} (hw : width.Means ρ known (n : Int))
    (hn : n ≤ 65536) :
    ((Term.lit 1 <<< width) - .lit 1).Means ρ known ((2 ^ n - 1 : Nat) : Int) := by
  have shifted := (Term.Means.ofNat 1).binary hw (BinaryOp.eval_shl hn)
  refine (shifted.binary (.ofLit 1) rfl).congr ?_
  rw [Nat.one_mul, Nat.cast_sub Nat.one_le_two_pow]
  rfl

/-- The formula of a sign extension at an index in its range. -/
theorem means_extended (hx : x.Means ρ known a) (hy : y.Means ρ known b) (hb : b < 31) :
    let lowMask := (Term.lit 1 <<< ((y.term + .lit 1) * .lit 8)) - .lit 1
    let low := x.term &&& lowMask
    (ofTerm (.mkIte
      (.mkEq (.mkBinary .testBit x.term ((y.term + .lit 1) * .lit 8 - .lit 1)) (.lit 1))
      (low ||| (.lit wordMask ^^^ lowMask)) low)).Means ρ known (signExtended a b) := by
  intro lowMask low
  refine ⟨?_, signExtended_lt hb⟩
  rw [signExtended]
  generalize hk : (b + 1) * 8 = k
  have width : ((y.term + .lit 1) * .lit 8 : Term).Means ρ known (k : Int) := by
    refine ((hy.term.binary (.ofLit 1) rfl).binary (.ofLit 8) rfl).congr ?_
    rw [← hk]
    norm_cast
  have last : ((y.term + .lit 1) * .lit 8 - .lit 1 : Term).Means ρ known ((k - 1 : Nat) : Int) := by
    refine (width.binary (.ofLit 1) rfl).congr ?_
    omega
  have hmask : lowMask.Means ρ known ((2 ^ k - 1 : Nat) : Int) := means_lowMask width (by omega)
  have hlow : low.Means ρ known ((a % 2 ^ k : Nat) : Int) := by
    refine (hx.term.binary hmask rfl).congr ?_
    rw [Integer.and_natCast, Nat.and_two_pow_sub_one_eq_mod]
  have sign := hx.term.binary last (BinaryOp.eval_testBit ..)
  apply Term.Means.ite (.eq_nat sign (.ofNat 1))
  · intro h
    rw [if_pos (by simpa using h)]
    exact hlow.binary ((Term.Means.ofLit wordMask).binary hmask rfl) rfl
  · intro h
    rw [if_neg (by simpa using h)]
    exact hlow

theorem means_signExtend (hx : x.Means ρ known a) (hy : y.Means ρ known b) :
    (x.signExtend y).Means ρ known (if b < 31 then signExtended a b else a) :=
  means_ite (.lt_nat hy.term (.ofNat 31)) (means_extended hx hy)
    fun _ => hx.untagged

/-! ## All together -/

/-- **Signed operators are two's-complement arithmetic.** For words with any formulas and any tags,
under every assignment that gives the formulas machine words as values. -/
theorem signed_operators_exact (hx : x.Denotes ρ a) (hy : y.Denotes ρ b) :
    Computes ρ [x, y] (x.sdiv y) (if b = 0 then 0 else ofInteger ((signed a).tdiv (signed b))) ∧
    Computes ρ [x, y] (x.smod y) (if b = 0 then 0 else ofInteger ((signed a).tmod (signed b))) ∧
    Computes ρ [x, y] (x.slt y) (if signed a < signed b then 1 else 0) ∧
    Computes ρ [x, y] (x.sgt y) (if signed a > signed b then 1 else 0) ∧
    Computes ρ [x, y] (x.sshiftRight y) (ofInteger (signed a / 2 ^ b)) ∧
    (256 ≤ b → Computes ρ [x, y] (x.sshiftRight y) (if signed a < 0 then 2 ^ 256 - 1 else 0)) ∧
    (31 ≤ b → Computes ρ [x, y] (x.signExtend y) a) ∧
    (b < 31 → ∃ r, Computes ρ [x, y] (x.signExtend y) r ∧ ∀ i < 256,
      r.testBit i = if i < 8 * (b + 1) then a.testBit i else a.testBit (8 * b + 7)) := by
  have mx := hx.means_of_mem (show x ∈ [x, y] by simp)
  have my := hy.means_of_mem (show y ∈ [x, y] by simp)
  refine ⟨(means_sdiv mx my).computes, (means_smod mx my).computes, (means_slt mx my).computes,
    (means_sgt mx my).computes, (means_sshiftRight mx my).computes, fun hb => ?_, fun hb => ?_,
    fun hb => ⟨signExtended a b, ?_, fun i hi => testBit_signExtended hb hi⟩⟩
  · exact ((means_sshiftRight mx my).congr (ofInteger_signed_div hx.lt hb)).computes
  · exact ((means_signExtend mx my).congr (if_neg (by omega))).computes
  · exact ((means_signExtend mx my).congr (if_pos hb)).computes

/-- The one quotient that does not fit: the least integer divided by minus one is itself. -/
theorem signed_operators_exact_at_bottom :
    (named "x").Denotes (fun _ => some ((2 ^ 255 : Nat) : Int)) (2 ^ 255) ∧
    (lit (2 ^ 256 - 1)).Denotes (fun _ => some ((2 ^ 255 : Nat) : Int)) (2 ^ 256 - 1) ∧
    Computes (fun _ => some ((2 ^ 255 : Nat) : Int)) [named "x", lit (2 ^ 256 - 1)]
      ((named "x").sdiv (lit (2 ^ 256 - 1))) (2 ^ 255) := by
  have hx : (named "x").Denotes (fun _ => some ((2 ^ 255 : Nat) : Int)) (2 ^ 255) :=
    ⟨Term.compute_eq_eval _, by norm_num⟩
  have hy : (lit (2 ^ 256 - 1)).Denotes (fun _ => some ((2 ^ 255 : Nat) : Int)) (2 ^ 256 - 1) :=
    ((means_lit (2 ^ 256 - 1)).congr rfl : (lit _).Means _ False _).denotes
  exact ⟨hx, hy, (signed_operators_exact hx hy).1⟩

end SymbolicMachine.Word
