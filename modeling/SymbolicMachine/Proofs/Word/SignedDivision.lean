import Mathlib
import SymbolicMachine.Proofs.Word.Signed
import SymbolicMachine.Proofs.Word.Unsigned

/-!
# Signed quotient and remainder

A machine word and its two's-complement reading are the same number modulo the word modulus, so a
law of the integers on the readings holds of the words as soon as it is read modulo the word modulus
(`ofInteger_congr`). The remainder is always in the range of the readings and comes back as it is
(`signed_ofInteger`); the one quotient that is not is taken care of by the modulus. Main result:
`signed_division_laws`.
-/

namespace SymbolicMachine.Word

variable {ρ : Assignment} {known : Prop} {x y : Word} {a b : Nat} {v w : Int}

/-! ## Integers modulo the word modulus -/

theorem ofInteger_modEq (v : Int) : (ofInteger v : Int) ≡ v [ZMOD 2 ^ 256] := by
  rw [natCast_ofInteger]
  exact Int.mod_modEq v _

theorem signed_modEq (a : Nat) : signed a ≡ a [ZMOD 2 ^ 256] := by
  rw [signed]
  split
  · rfl
  · exact Int.sub_emod_right _ _

theorem ofInteger_congr (h : v ≡ w [ZMOD 2 ^ 256]) : ofInteger v = ofInteger w := by
  rw [ofInteger, ofInteger, h]

/-- An integer in the range of the readings is the reading of its word. -/
theorem signed_ofInteger (hlow : -2 ^ 255 ≤ v) (hhigh : v < 2 ^ 255) :
    signed (ofInteger v) = v := by
  rw [signed, ofInteger]
  split <;> omega

/-! ## Quotient and remainder on the readings -/

theorem natAbs_signed_le (ha : a < 2 ^ 256) : (signed a).natAbs ≤ 2 ^ 255 := by
  obtain ⟨hlow, hhigh⟩ := signed_bounds ha
  omega

theorem natAbs_tmod_lt (a : Nat) (hb : b < 2 ^ 256) (hb0 : b ≠ 0) :
    ((signed a).tmod (signed b)).natAbs < (signed b).natAbs := by
  rw [Int.natAbs_tmod]
  exact Nat.mod_lt _ (Int.natAbs_pos.mpr (mt (signed_eq_zero hb).mp hb0))

/-- The remainder is in the range of the readings, so that it is read as itself. -/
theorem signed_ofInteger_tmod (a : Nat) (hb : b < 2 ^ 256) (hb0 : b ≠ 0) :
    signed (ofInteger ((signed a).tmod (signed b))) = (signed a).tmod (signed b) := by
  have hlt := natAbs_tmod_lt a hb hb0
  have hle := natAbs_signed_le hb
  exact signed_ofInteger (by omega) (by omega)

/-- Quotient and remainder recombine, whatever wraps on the way. -/
theorem recombined_eq (ha : a < 2 ^ 256) :
    (ofInteger ((signed a).tdiv (signed b)) * b % 2 ^ 256 +
      ofInteger ((signed a).tmod (signed b))) % 2 ^ 256 = a := by
  have hquotient := (ofInteger_modEq ((signed a).tdiv (signed b))).mul (signed_modEq b).symm
  have hsum := hquotient.add (ofInteger_modEq ((signed a).tmod (signed b)))
  rw [Int.tdiv_mul_add_tmod] at hsum
  have hword := ofInteger_congr (hsum.trans (signed_modEq a))
  rw [Nat.mod_add_mod, ← ofInteger_natCast, Nat.cast_add, Nat.cast_mul, hword, ofInteger_natCast,
    Nat.mod_eq_of_lt ha]

/-! ## Negation -/

/-- The machine word that stands for the negated number. -/
theorem ofInteger_neg (v : Int) : ofInteger (-v) = (2 ^ 256 - ofInteger v) % 2 ^ 256 := by
  rw [ofInteger, ofInteger]
  omega

/-- The least reading has no counterpart and is negated to itself. -/
theorem signed_negated (hb : b < 2 ^ 256) :
    signed ((2 ^ 256 - b) % 2 ^ 256) = if b = 2 ^ 255 then signed b else -signed b := by
  rw [signed, signed]
  split_ifs <;> omega

/-! ## The laws -/

theorem means_sdiv_of_ne_zero (hx : x.Means ρ known a) (hy : y.Means ρ known b) (hb : b ≠ 0) :
    (x.sdiv y).Means ρ known (ofInteger ((signed a).tdiv (signed b))) :=
  (means_sdiv hx hy).congr (if_neg hb)

theorem means_smod_of_ne_zero (hx : x.Means ρ known a) (hy : y.Means ρ known b) (hb : b ≠ 0) :
    (x.smod y).Means ρ known (ofInteger ((signed a).tmod (signed b))) :=
  (means_smod hx hy).congr (if_neg hb)

/-- **Signed division obeys the laws of division under wraparound.** For words with any formulas and
any tags, under every assignment that gives the formulas machine words as values, the second of them
not zero. Quotient and remainder recombine to the dividend. The remainder is zero or has the sign of
the dividend, and is smaller than the divisor. Negating the divisor leaves the remainder as it is and
negates the quotient; the least divisor is its own negation, so with it the quotient stays too. -/
theorem signed_division_laws (hx : x.Denotes ρ a) (hy : y.Denotes ρ b) (hb : b ≠ 0) :
    (((x.sdiv y).mul y).add (x.smod y)).Denotes ρ a ∧
    (∃ r, (x.smod y).Denotes ρ r ∧ (signed r = 0 ∨ (signed r).sign = (signed a).sign) ∧
      (signed r).natAbs < (signed b).natAbs) ∧
    Agree ρ (x.smod ((lit 0).sub y)) (x.smod y) ∧
    (b ≠ 2 ^ 255 → ∃ q, (x.sdiv y).Denotes ρ q ∧
      (x.sdiv ((lit 0).sub y)).Denotes ρ ((2 ^ 256 - q) % 2 ^ 256)) ∧
    (b = 2 ^ 255 → Agree ρ (x.sdiv ((lit 0).sub y)) (x.sdiv y)) := by
  have mx := hx.means_value
  have my := hy.means_value
  have quotient := means_sdiv_of_ne_zero mx my hb
  have remainder := means_smod_of_ne_zero mx my hb
  have hnegated : (2 ^ 256 - b) % 2 ^ 256 ≠ 0 := by
    have := hy.lt
    omega
  have negQuotient := means_sdiv_of_ne_zero mx (means_negated my) hnegated
  have negRemainder := means_smod_of_ne_zero mx (means_negated my) hnegated
  rw [signed_negated hy.lt] at negQuotient negRemainder
  refine ⟨?_, ⟨_, remainder.denotes, ?_⟩, ?_, fun hleast => ⟨_, quotient.denotes, ?_⟩,
    fun hleast => ?_⟩
  · have sum := means_add (means_mul quotient my) remainder
    rw [recombined_eq hx.lt] at sum
    exact sum.denotes
  · rw [signed_ofInteger_tmod a hy.lt hb]
    refine ⟨?_, natAbs_tmod_lt a hy.lt hb⟩
    have hsign := Int.sign_tmod (signed a) (signed b)
    split_ifs at hsign
    · exact .inl (Int.sign_eq_zero_iff_zero.mp hsign)
    · exact .inr hsign
  · -- the remainder does not see the sign of the divisor
    have hsame : (signed a).tmod (if b = 2 ^ 255 then signed b else -signed b) =
        (signed a).tmod (signed b) := by
      split
      · rfl
      · exact Int.tmod_neg _ _
    rw [hsame] at negRemainder
    exact negRemainder.agree remainder
  · rw [if_neg hleast, Int.tdiv_neg, ofInteger_neg] at negQuotient
    exact negQuotient.denotes
  · rw [if_pos hleast] at negQuotient
    exact negQuotient.agree quotient

/-- The quotient that does not fit, and a divisor that is its own negation. -/
theorem signed_division_laws_at_bottom :
    let ρ : Assignment := fun _ => some ((2 ^ 255 : Nat) : Int)
    let x := named "x"
    let y := lit (2 ^ 256 - 1)
    (x.Denotes ρ (2 ^ 255) ∧ y.Denotes ρ (2 ^ 256 - 1)) ∧
    (2 ^ 256 - 1 ≠ 0 ∧ 2 ^ 256 - 1 ≠ 2 ^ 255 ∧ 2 ^ 255 ≠ 0) ∧
    (((x.sdiv y).mul y).add (x.smod y)).Denotes ρ (2 ^ 255) ∧
    Agree ρ (x.smod ((lit 0).sub y)) (x.smod y) ∧
    (∃ q, (x.sdiv y).Denotes ρ q ∧ (x.sdiv ((lit 0).sub y)).Denotes ρ ((2 ^ 256 - q) % 2 ^ 256)) ∧
    Agree ρ (x.sdiv ((lit 0).sub x)) (x.sdiv x) := by
  intro ρ x y
  have hx : x.Denotes ρ (2 ^ 255) := denotes_named rfl (by norm_num)
  have hy : y.Denotes ρ (2 ^ 256 - 1) := denotes_lit (by norm_num)
  obtain ⟨hrecombined, -, hremainder, hquotient, -⟩ := signed_division_laws hx hy (by norm_num)
  obtain ⟨-, -, -, -, hleast⟩ := signed_division_laws hx hx (by norm_num)
  exact ⟨⟨hx, hy⟩, ⟨by norm_num, by norm_num, by norm_num⟩, hrecombined, hremainder,
    hquotient (by norm_num), hleast rfl⟩

end SymbolicMachine.Word
