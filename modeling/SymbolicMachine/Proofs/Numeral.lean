import Mathlib
import SymbolicMachine.Formula.Text

/-!
# Numerals are read back

An integer has one numeral in a base, and no other integer has it (`numeral_inj`). Literals change
from decimal to hexadecimal numerals as they grow, but never meet (`writeLiteral_inj`).
-/

namespace SymbolicMachine

namespace Integer

variable {base m n : Nat} {x y : Int} {c : Char}

theorem exists_digit_of_mem_toDigits (hb : 1 < base) (h : c ∈ base.toDigits n) :
    ∃ d < base, c = d.digitChar := by
  induction n using Nat.strongRecOn with
  | ind n ih =>
    rcases Nat.lt_or_ge n base with hn | hn
    · rw [Nat.toDigits_of_lt_base hn, List.mem_singleton] at h
      exact ⟨n, hn, h⟩
    · rw [Nat.toDigits_of_base_le hb hn, List.mem_append, List.mem_singleton] at h
      rcases h with h | h
      · exact ih (n / base) (Nat.div_lt_self (by omega) hb) h
      · exact ⟨n % base, Nat.mod_lt n (by omega), h⟩

theorem digitChar_inj : ∀ d < 16, ∀ e < 16, d.digitChar = e.digitChar → d = e := by decide

/-- Digits from the last one on spell one number. -/
theorem toDigits_inj (hb : 1 < base) (hle : base ≤ 16) (h : base.toDigits m = base.toDigits n) :
    m = n := by
  induction m using Nat.strongRecOn generalizing n with
  | ind m ih =>
    have last : ∀ {d e : Nat}, d < base → e < base → d.digitChar = e.digitChar → d = e :=
      fun hd he => digitChar_inj _ (hd.trans_le hle) _ (he.trans_le hle)
    -- a number with one digit has no digits in front of the last
    have short : ∀ {d k : Nat}, [d.digitChar] ≠ base.toDigits (k / base) ++ [(k % base).digitChar] := by
      intro d k hd
      have hlength := congrArg List.length hd
      have hfront : 0 < (base.toDigits (k / base)).length := Nat.length_toDigits_pos
      rw [List.length_append, List.length_singleton, List.length_singleton] at hlength
      omega
    rcases Nat.lt_or_ge m base with hm | hm <;> rcases Nat.lt_or_ge n base with hn | hn
    · rw [Nat.toDigits_of_lt_base hm, Nat.toDigits_of_lt_base hn] at h
      exact last hm hn (List.cons.inj h).1
    · rw [Nat.toDigits_of_lt_base hm, Nat.toDigits_of_base_le hb hn] at h
      exact absurd h short
    · rw [Nat.toDigits_of_base_le hb hm, Nat.toDigits_of_lt_base hn] at h
      exact absurd h.symm short
    · rw [Nat.toDigits_of_base_le hb hm, Nat.toDigits_of_base_le hb hn] at h
      obtain ⟨hfront, hlast⟩ := List.append_inj' h rfl
      have hdiv : m / base = n / base := ih _ (Nat.div_lt_self (by omega) hb) hfront
      have hmod : m % base = n % base :=
        last (Nat.mod_lt m (by omega)) (Nat.mod_lt n (by omega)) (List.cons.inj hlast).1
      rw [← Nat.div_add_mod m base, hdiv, hmod, Nat.div_add_mod]

theorem digitChar_ne_minus : ∀ d < 16, d.digitChar ≠ '-' := by decide

theorem minus_notMem_toDigits (hb : 1 < base) (hle : base ≤ 16) : '-' ∉ base.toDigits n := by
  intro h
  obtain ⟨d, hd, hminus⟩ := exists_digit_of_mem_toDigits hb h
  exact digitChar_ne_minus d (hd.trans_le hle) hminus.symm

theorem mem_numeral (hb : 1 < base) (h : c ∈ numeral base x) :
    c = '-' ∨ ∃ d < base, c = d.digitChar := by
  rcases List.mem_append.mp h with h | h
  · rw [sign] at h
    split_ifs at h
    · exact .inl (List.mem_singleton.mp h)
    · cases h
  · exact .inr (exists_digit_of_mem_toDigits hb h)

theorem numeral_ne_nil : numeral base x ≠ [] :=
  List.append_ne_nil_of_right_ne_nil _ Nat.toDigits_ne_nil

theorem numeral_inj (hb : 1 < base) (hle : base ≤ 16) (h : numeral base x = numeral base y) :
    x = y := by
  -- a minus sign is no digit, so the signs agree
  have minus : ∀ {z : Int}, z < 0 ↔ '-' ∈ numeral base z := by
    intro z
    rw [numeral, List.mem_append, or_iff_left (minus_notMem_toDigits hb hle), sign]
    split_ifs with hz <;> simp [hz]
  have hneg : x < 0 ↔ y < 0 := by rw [minus, minus, h]
  have hsign : sign x = sign y := by rw [sign, sign]; simp only [hneg]
  have habs : x.natAbs = y.natAbs := by
    rw [numeral, numeral, hsign] at h
    exact toDigits_inj hb hle (List.append_cancel_left h)
  omega

end Integer

open Integer

/-! ## Literals -/

variable {v w : Int} {c : Char}

/-- The first character of a literal, and all of them if it is decimal. -/
theorem digit_or_minus_of_head {cs : List Char} (h : writeLiteral v = c :: cs) :
    c = '-' ∨ ∃ d < 10, c = d.digitChar := by
  unfold writeLiteral at h
  split_ifs at h
  · exact mem_numeral (by norm_num) (h ▸ List.mem_cons_self)
  · exact .inr ⟨0, by norm_num, (List.cons.inj h).1.symm⟩

theorem mem_writeLiteral (h : c ∈ writeLiteral v) :
    c = '-' ∨ c = 'x' ∨ ∃ d < 16, c = d.digitChar := by
  unfold writeLiteral at h
  split_ifs at h
  · obtain h | ⟨d, hd, h⟩ := mem_numeral (by norm_num) h
    · exact .inl h
    · exact .inr (.inr ⟨d, by omega, h⟩)
  · rcases List.mem_cons.mp h with h | h
    · exact .inr (.inr ⟨0, by norm_num, h⟩)
    · rcases List.mem_cons.mp h with h | h
      · exact .inr (.inl h)
      · exact (mem_numeral (by norm_num) h).imp_right .inr

theorem writeLiteral_ne_nil : writeLiteral v ≠ [] := by
  unfold writeLiteral
  split_ifs
  · exact numeral_ne_nil
  · exact List.cons_ne_nil _ _

theorem digitChar_ne_x : ∀ d < 10, 'x' ≠ d.digitChar := by decide

/-- No decimal numeral has an `x` in it. -/
theorem numeral_ne_hexadecimal : numeral 10 v ≠ '0' :: 'x' :: numeral 16 w := by
  intro h
  have hx : 'x' ∈ numeral 10 v := by
    rw [h]
    exact List.mem_cons_of_mem _ List.mem_cons_self
  obtain hx | ⟨d, hd, hx⟩ := mem_numeral (by norm_num) hx
  · cases hx
  · exact digitChar_ne_x d hd hx

theorem writeLiteral_inj (h : writeLiteral v = writeLiteral w) : v = w := by
  unfold writeLiteral at h
  split_ifs at h
  · exact numeral_inj (by norm_num) (by norm_num) h
  · exact absurd h numeral_ne_hexadecimal
  · exact absurd h.symm numeral_ne_hexadecimal
  · exact numeral_inj (by norm_num) (by norm_num) (List.cons.inj (List.cons.inj h).2).2

end SymbolicMachine
