import Mathlib
import SymbolicMachine.Proofs.Word.Shifts
import SymbolicMachine.Proofs.Word.Signed

/-!
# Sign extension and shifting with the sign

Both constructions only repeat bits: bit `i` of a sign extension from byte `b` is bit
`min i (8 * b + 7)` of the word (`testBit_signExtension`), and bit `i` of a shift to the right by `n`
that copies the sign is bit `min (i + n) 255` (`testBit_ofInteger_signed_div`). Laws about them are
laws about minima. Main result: `signExtend_laws`.
-/

namespace SymbolicMachine.Word

variable {ρ : Assignment} {known : Prop} {x y j k : Word} {a b c i n : Nat}

/-! ## Which bit is copied where -/

/-- Machine words with the same bits are the same. -/
theorem eq_of_testBit_eq (ha : a < 2 ^ 256) (hb : b < 2 ^ 256)
    (h : ∀ i < 256, a.testBit i = b.testBit i) : a = b := by
  apply Nat.eq_of_testBit_eq
  intro i
  rcases Nat.lt_or_ge i 256 with hi | hi
  · exact h i hi
  · have hpow : 2 ^ 256 ≤ 2 ^ i := Nat.pow_le_pow_right two_pos hi
    rw [Nat.testBit_lt_two_pow (ha.trans_le hpow), Nat.testBit_lt_two_pow (hb.trans_le hpow)]

/-- The sign extension from any byte of a machine word; from the last one on there is nothing to
extend. -/
def signExtension (a b : Nat) : Nat := if b < 31 then signExtended a b else a

theorem means_signExtension (hx : x.Means ρ known a) (hy : y.Means ρ known b) :
    (x.signExtend y).Means ρ known (signExtension a b) :=
  means_signExtend hx hy

theorem signExtension_of_le (hb : 31 ≤ b) : signExtension a b = a := if_neg hb.not_gt

theorem signExtension_lt (ha : a < 2 ^ 256) : signExtension a b < 2 ^ 256 := by
  rw [signExtension]
  split
  · exact signExtended_lt ‹_›
  · exact ha

theorem testBit_signExtension (hi : i < 256) :
    (signExtension a b).testBit i = a.testBit (min i (8 * b + 7)) := by
  rw [signExtension]
  split
  · rw [testBit_signExtended ‹_› hi]
    split
    · rw [min_eq_left (by omega)]
    · rw [min_eq_right (by omega)]
  · rw [min_eq_left (by omega)]

theorem signed_eq_toInt (ha : a < 2 ^ 256) : signed a = (BitVec.ofNat 256 a).toInt := by
  rw [BitVec.toInt_eq_toNat_cond, toNat_bits ha, signed]
  split <;> split <;> omega

theorem ofInteger_toInt (v : BitVec 256) : ofInteger v.toInt = v.toNat := by
  have h := BitVec.toNat_ofInt (n := 256) v.toInt
  rw [BitVec.ofInt_toInt] at h
  exact h.symm

theorem testBit_ofInteger_signed_div (ha : a < 2 ^ 256) (hi : i < 256) :
    (ofInteger (signed a / 2 ^ n)).testBit i = a.testBit (min (i + n) 255) := by
  have hshift : signed a / 2 ^ n = ((BitVec.ofNat 256 a).sshiftRight n).toInt := by
    rw [BitVec.toInt_sshiftRight, ← signed_eq_toInt ha, Int.shiftRight_eq_div_pow]
    norm_cast
  have hbit : ∀ m, (BitVec.ofNat 256 a).getLsbD m = a.testBit m := by
    intro m
    rw [← BitVec.testBit_toNat, toNat_bits ha]
  rw [hshift, ofInteger_toInt, BitVec.testBit_toNat, BitVec.getLsbD_sshiftRight,
    BitVec.msb_eq_getLsbD_last, hbit, hbit, decide_eq_false hi.not_ge, Bool.not_false,
    Bool.true_and]
  split
  · rw [min_eq_left (by omega), Nat.add_comm]
  · rw [min_eq_right (by omega)]

/-! ## The laws -/

/-- Shifting up and back with the sign leaves the bits below, and the last of them above. -/
theorem testBit_shifted_back (hn : n < 256) (hi : i < 256) :
    (ofInteger (signed (a * 2 ^ n % 2 ^ 256) / 2 ^ n)).testBit i =
      a.testBit (min i (255 - n)) := by
  have hplace : min (i + n) 255 - n = min i (255 - n) := by omega
  rw [testBit_ofInteger_signed_div (Nat.mod_lt _ (by norm_num)) hi, Nat.testBit_mod_two_pow,
    Nat.testBit_mul_two_pow, hplace, decide_eq_true (by omega), decide_eq_true (by omega),
    Bool.true_and, Bool.true_and]

theorem signExtension_eq_shifted_back (ha : a < 2 ^ 256) (hb : b ≤ 31) :
    signExtension a b =
      ofInteger (signed (a * 2 ^ (248 - 8 * b) % 2 ^ 256) / 2 ^ (248 - 8 * b)) := by
  refine eq_of_testBit_eq (signExtension_lt ha) (ofInteger_lt _) fun i hi => ?_
  have hlast : 8 * b + 7 = 255 - (248 - 8 * b) := by omega
  rw [testBit_signExtension hi, testBit_shifted_back (by omega) hi, hlast]

theorem signExtension_signExtension (ha : a < 2 ^ 256) :
    signExtension (signExtension a b) c = signExtension a (min b c) := by
  refine eq_of_testBit_eq (signExtension_lt (signExtension_lt ha)) (signExtension_lt ha)
    fun i hi => ?_
  have hplace : min (min i (8 * c + 7)) (8 * b + 7) = min i (8 * min b c + 7) := by omega
  rw [testBit_signExtension hi, testBit_signExtension (by omega), testBit_signExtension hi, hplace]

/-- **Sign extension is a shift up and back with the sign, and extends from the lower byte.** For
words with any formulas and any tags, under every assignment that gives the formulas machine words
as values. The shift is by what is above the byte, in whatever word that amount may be; past the
last byte nothing changes. Of two sign extensions, whichever comes first, the one from the lower
byte is left. -/
theorem signExtend_laws (hx : x.Denotes ρ a) (hj : j.Denotes ρ b) (hk : k.Denotes ρ c) :
    (∀ amount : Word, c ≤ 31 → amount.Denotes ρ (248 - 8 * c) →
      Agree ρ (x.signExtend k) ((x.shiftLeft amount).sshiftRight amount)) ∧
    (31 < c → (x.signExtend k).Denotes ρ a) ∧
    (∀ lower : Word, lower.Denotes ρ (min b c) →
      Agree ρ ((x.signExtend j).signExtend k) (x.signExtend lower)) := by
  have mx := hx.means_value
  have mj := hj.means_value
  have mk := hk.means_value
  refine ⟨fun amount hc hamount => ?_, fun hc => ?_, fun lower hlower => ?_⟩
  · have mamount := hamount.means_value
    have up := means_shiftLeft mx mamount
    rw [if_pos (by omega)] at up
    have back := means_sshiftRight up mamount
    rw [← signExtension_eq_shifted_back hx.lt hc] at back
    exact (means_signExtension mx mk).agree back
  · have extended := means_signExtension mx mk
    rw [signExtension_of_le hc.le] at extended
    exact extended.denotes
  · have twice := means_signExtension (means_signExtension mx mj) mk
    rw [signExtension_signExtension hx.lt] at twice
    exact twice.agree (means_signExtension mx hlower.means_value)

/-- An unknown whose lowest byte is negative, as a word and as an index past the last byte. -/
theorem signExtend_laws_of_negative_byte :
    let ρ : Assignment := fun _ => some 128
    let x := named "x"
    (x.Denotes ρ 128 ∧ (lit 30).Denotes ρ 30 ∧ (lit 0).Denotes ρ 0 ∧
      (lit 248).Denotes ρ (248 - 8 * 0)) ∧
    (0 ≤ 31 ∧ 31 < 128) ∧
    Agree ρ (x.signExtend (lit 0)) ((x.shiftLeft (lit 248)).sshiftRight (lit 248)) ∧
    Agree ρ ((x.signExtend (lit 30)).signExtend (lit 0)) (x.signExtend (lit 0)) ∧
    (x.signExtend x).Denotes ρ 128 ∧
    (x.signExtend (lit 0)).Denotes ρ (2 ^ 256 - 128) := by
  intro ρ x
  have hx : x.Denotes ρ 128 := denotes_named rfl (by norm_num)
  have hj : (lit 30).Denotes ρ 30 := denotes_lit (by norm_num)
  have hk : (lit 0).Denotes ρ 0 := denotes_lit (by norm_num)
  have hamount : (lit 248).Denotes ρ (248 - 8 * 0) := denotes_lit (by norm_num)
  obtain ⟨hshift, -, htwice⟩ := signExtend_laws hx hj hk
  obtain ⟨-, hpast, -⟩ := signExtend_laws hx hj hx
  have hback := hshift _ (by norm_num) hamount
  have shifted : ((x.shiftLeft (lit 248)).sshiftRight (lit 248)).Denotes ρ (2 ^ 256 - 128) :=
    .of_eval (by decide +kernel) (by norm_num)
  exact ⟨⟨hx, hj, hk, hamount⟩, ⟨by norm_num, by norm_num⟩, hback, htwice _ hk,
    hpast (by norm_num), hback.denotes shifted⟩

end SymbolicMachine.Word
