import Mathlib
import SymbolicMachine.Proofs.Word.Shifts
import SymbolicMachine.Proofs.Word.Unsigned

/-!
# Rotations act on the words

A rotation only moves bits: place `i` of the result shows place `i - n` of the word, counted around
the width (`getLsbD_rotateLeft_around`). So rotations compose by adding their amounts, an amount
counts modulo the width only, and a rotation in the other direction is the rotation by what is
missing to the width. As the width divides the word modulus, the amounts may wrap. Main result:
`rotations_act`.
-/

namespace SymbolicMachine

/-! ## Rotations of bits -/

section

variable (v : BitVec 256) (m n : Nat)

theorem getLsbD_rotateLeft_around {i : Nat} (hi : i < 256) :
    (v.rotateLeft n).getLsbD i = v.getLsbD ((i + (256 - n % 256)) % 256) := by
  rw [BitVec.getLsbD_rotateLeft]
  by_cases h : i < n % 256
  · have hplace : (i + (256 - n % 256)) % 256 = 256 - n % 256 + i := by omega
    rw [decide_eq_true h, cond_true, hplace]
  · have hplace : (i + (256 - n % 256)) % 256 = i - n % 256 := by omega
    rw [decide_eq_false h, cond_false, decide_eq_true hi, Bool.true_and, hplace]

theorem getLsbD_rotateRight_around {i : Nat} (hi : i < 256) :
    (v.rotateRight n).getLsbD i = v.getLsbD ((i + n) % 256) := by
  rw [BitVec.getLsbD_rotateRight]
  by_cases h : i < 256 - n % 256
  · have hplace : (i + n) % 256 = n % 256 + i := by omega
    rw [decide_eq_true h, cond_true, hplace]
  · have hplace : (i + n) % 256 = i - (256 - n % 256) := by omega
    rw [decide_eq_false h, cond_false, decide_eq_true hi, Bool.true_and, hplace]

theorem rotateLeft_rotateLeft : (v.rotateLeft m).rotateLeft n = v.rotateLeft (m + n) := by
  apply BitVec.eq_of_getLsbD_eq
  intro i hi
  have hplace : ((i + (256 - n % 256)) % 256 + (256 - m % 256)) % 256 =
      (i + (256 - (m + n) % 256)) % 256 := by omega
  rw [getLsbD_rotateLeft_around _ _ hi, getLsbD_rotateLeft_around _ _ (Nat.mod_lt _ (by norm_num)),
    getLsbD_rotateLeft_around _ _ hi, hplace]

theorem rotateRight_eq_rotateLeft : v.rotateRight n = v.rotateLeft (256 - n % 256) := by
  apply BitVec.eq_of_getLsbD_eq
  intro i hi
  have hplace : (i + n) % 256 = (i + (256 - (256 - n % 256) % 256)) % 256 := by omega
  rw [getLsbD_rotateRight_around _ _ hi, getLsbD_rotateLeft_around _ _ hi, hplace]

variable {m n}

theorem rotateLeft_congr (h : m % 256 = n % 256) : v.rotateLeft m = v.rotateLeft n := by
  rw [← BitVec.rotateLeft_mod_eq_rotateLeft, h, BitVec.rotateLeft_mod_eq_rotateLeft]

theorem rotateLeft_of_dvd (h : 256 ∣ n) : v.rotateLeft n = v := by
  apply BitVec.eq_of_getLsbD_eq
  intro i hi
  have hplace : (i + (256 - n % 256)) % 256 = i := by omega
  rw [getLsbD_rotateLeft_around _ _ hi, hplace]

/-- Counting around the width from another start meets every place once. -/
theorem perm_range_around (k : Nat) :
    ((List.range 256).map fun i => (i + k) % 256).Perm (List.range 256) := by
  have hinj : ∀ i ∈ List.range 256, ∀ j ∈ List.range 256,
      (i + k) % 256 = (j + k) % 256 → i = j := by
    intro i hi j hj h
    have hi' := List.mem_range.mp hi
    have hj' := List.mem_range.mp hj
    omega
  refine (List.perm_ext_iff_of_nodup (List.nodup_range.map_on hinj) List.nodup_range).mpr
    fun j => ?_
  rw [List.mem_map, List.mem_range]
  constructor
  · rintro ⟨i, -, rfl⟩
    exact Nat.mod_lt _ (by norm_num)
  · intro hj
    refine ⟨(j + (256 - k % 256)) % 256, List.mem_range.mpr (Nat.mod_lt _ (by norm_num)), ?_⟩
    omega

variable (n)

theorem countP_rotateLeft :
    (List.range 256).countP (v.rotateLeft n).toNat.testBit =
      (List.range 256).countP v.toNat.testBit := by
  let place : Nat → Nat := fun i => (i + (256 - n % 256)) % 256
  have hmoved : ∀ i ∈ List.range 256, (v.rotateLeft n).toNat.testBit i = true ↔
      (v.toNat.testBit ∘ place) i = true := by
    intro i hi
    rw [BitVec.testBit_toNat, getLsbD_rotateLeft_around _ _ (List.mem_range.mp hi),
      Function.comp_apply, BitVec.testBit_toNat]
  calc (List.range 256).countP (v.rotateLeft n).toNat.testBit
      = (List.range 256).countP (v.toNat.testBit ∘ place) := List.countP_congr hmoved
    _ = ((List.range 256).map place).countP v.toNat.testBit := List.countP_map.symm
    _ = (List.range 256).countP v.toNat.testBit := (perm_range_around _).countP_eq _

end

/-! ## Rotations of words -/

namespace Word

variable {ρ : Assignment} {known : Prop} {x m n : Word} {a b c : Nat}

section

variable {v : BitVec 256}

theorem means_rotateLeft_bits (hx : x.Means ρ known v.toNat) (hn : n.Means ρ known c) :
    (x.rotateLeft n).Means ρ known (v.rotateLeft c).toNat := by
  have h := means_rotateLeft hx hn
  rwa [BitVec.ofNat_toNat, BitVec.setWidth_eq] at h

theorem means_rotateRight_bits (hx : x.Means ρ known v.toNat) (hn : n.Means ρ known c) :
    (x.rotateRight n).Means ρ known (v.rotateLeft (256 - c % 256)).toNat := by
  have h := means_rotateRight hx hn
  rwa [BitVec.ofNat_toNat, BitVec.setWidth_eq, rotateRight_eq_rotateLeft] at h

end

/-- **Rotations are an action of the words on the words.** For words with any formulas and any tags,
under every assignment that gives the formulas machine words as values. Opposite rotations by the
same amount cancel, rotations in one direction add their amounts as words, a multiple of the width
does nothing, and a rotation to the right is the rotation to the left by the negated amount. The
number of ones stays the same. -/
theorem rotations_act (hx : x.Denotes ρ a) (hm : m.Denotes ρ b) (hn : n.Denotes ρ c) :
    ((x.rotateLeft n).rotateRight n).Denotes ρ a ∧
    ((x.rotateRight n).rotateLeft n).Denotes ρ a ∧
    Agree ρ ((x.rotateLeft m).rotateLeft n) (x.rotateLeft (m.add n)) ∧
    (256 ∣ c → (x.rotateLeft n).Denotes ρ a) ∧
    Agree ρ (x.rotateRight n) (x.rotateLeft ((lit 0).sub n)) ∧
    Agree ρ (x.rotateLeft n).popcount x.popcount ∧
    Agree ρ (x.rotateRight n).popcount x.popcount := by
  have mx := hx.means_value
  have mm := hm.means_value
  have mn := hn.means_value
  have hvalue := toNat_bits hx.lt
  have vx := mx.congr hvalue.symm
  generalize BitVec.ofNat 256 a = v at vx hvalue
  have left := means_rotateLeft_bits vx mn
  have right := means_rotateRight_bits vx mn
  refine ⟨?_, ?_, ?_, fun hc => ?_, ?_, ?_, ?_⟩
  · -- both rotations together are by a multiple of the width
    have h := means_rotateRight_bits left mn
    rw [rotateLeft_rotateLeft, rotateLeft_of_dvd v (by omega), hvalue] at h
    exact h.denotes
  · have h := means_rotateLeft_bits right mn
    rw [rotateLeft_rotateLeft, rotateLeft_of_dvd v (by omega), hvalue] at h
    exact h.denotes
  · have twice := means_rotateLeft_bits (means_rotateLeft_bits vx mm) mn
    have once := means_rotateLeft_bits vx (means_add mm mn)
    rw [rotateLeft_congr v (by omega : (b + c) % 2 ^ 256 % 256 = (b + c) % 256)] at once
    rw [rotateLeft_rotateLeft] at twice
    exact twice.agree once
  · rw [rotateLeft_of_dvd v hc, hvalue] at left
    exact left.denotes
  · have negated := means_rotateLeft_bits vx (means_negated mn)
    have hc := hn.lt
    rw [rotateLeft_congr v (by omega : _ = (256 - c % 256) % 256)] at negated
    exact right.agree negated
  · exact (means_popcount left).agree ((means_popcount vx).congr (countP_rotateLeft v _).symm)
  · exact (means_popcount right).agree ((means_popcount vx).congr (countP_rotateLeft v _).symm)

/-- The value five rotated by itself and by the largest amount, so that the sum of the amounts wraps
to four, and by twice the width. -/
theorem rotations_act_past_modulus :
    let ρ : Assignment := fun _ => some 5
    let x := named "x"
    let m := lit (2 ^ 256 - 1)
    (x.Denotes ρ 5 ∧ m.Denotes ρ (2 ^ 256 - 1) ∧ (lit 512).Denotes ρ 512 ∧ 256 ∣ 512) ∧
    ((x.rotateLeft x).rotateRight x).Denotes ρ 5 ∧
    Agree ρ ((x.rotateLeft m).rotateLeft x) (x.rotateLeft (m.add x)) ∧
    Agree ρ (x.rotateRight x) (x.rotateLeft ((lit 0).sub x)) ∧
    Agree ρ (x.rotateRight x).popcount x.popcount ∧
    (x.rotateLeft (lit 512)).Denotes ρ 5 ∧
    ((x.rotateLeft m).rotateLeft x).Denotes ρ 80 ∧
    (x.rotateRight x).Denotes ρ (5 * 2 ^ 251) ∧
    (x.rotateRight x).popcount.Denotes ρ 2 := by
  intro ρ x m
  have hx : x.Denotes ρ 5 := denotes_named rfl (by norm_num)
  have hm : m.Denotes ρ (2 ^ 256 - 1) := denotes_lit (by norm_num)
  have hwide : (lit 512).Denotes ρ 512 := denotes_lit (by norm_num)
  obtain ⟨hcancel, -, hsum, -, hnegated, -, hones⟩ := rotations_act hx hm hx
  obtain ⟨-, -, -, hmultiple, -⟩ := rotations_act hx hm hwide
  have byFour : (x.rotateLeft (m.add x)).Denotes ρ 80 :=
    .of_eval (by decide +kernel) (by norm_num)
  have byNegated : (x.rotateLeft ((lit 0).sub x)).Denotes ρ (5 * 2 ^ 251) :=
    .of_eval (by decide +kernel) (by norm_num)
  have ones : x.popcount.Denotes ρ 2 := .of_eval (by decide +kernel) (by norm_num)
  exact ⟨⟨hx, hm, hwide, by norm_num⟩, hcancel, hsum, hnegated, hones, hmultiple (by norm_num),
    hsum.denotes byFour, hnegated.denotes byNegated, hones.denotes ones⟩

end Word

end SymbolicMachine
