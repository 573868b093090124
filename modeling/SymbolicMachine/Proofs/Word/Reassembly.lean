import Mathlib
import SymbolicMachine.Proofs.Word.Tags

/-!
# Bytes put together and taken apart

Bytes put together are a literal only if each of them is one (`Term.isLit_ofBytes`), because folding
never gets rid of a byte that is not. If the literals among them are bytes, the word that they make
is therefore taken apart into the very same formulas (`Word.toBytes_ofBytes`): either it is a
literal with the digits of the bytes, or it still has its window.
-/

namespace SymbolicMachine

namespace Term

/-! ## Literals -/

/-- Adding keeps a term that is not a literal. -/
theorem isLit_mkAdd (l r : Term) : (mkBinary .add l r).isLit = (l.isLit && r.isLit) := by
  unfold mkBinary BinaryOp.fold?
  split
  · rfl
  · rename_i hlits
    simp only [BinaryOp.simplify?]
    split_ifs with hl hr
    · rw [hl]
      rfl
    · rw [hr]
      exact (Bool.and_true _).symm
    · -- two literals have been folded before, so one of the sides is none
      change false = _
      cases l with
      | lit x =>
        cases r with
        | lit y => exact absurd rfl (hlits x y rfl)
        | _ => rfl
      | _ => rfl

theorem isLit_mkMul_256 (t : Term) : (mkBinary .mul t (.lit 256)).isLit = t.isLit := by
  cases t <;> rfl

/-- **Bytes put together are a literal if and only if all of them are.** -/
theorem isLit_ofBytes (bytes : List Term) : (ofBytes bytes).isLit = bytes.all isLit := by
  suffices hacc : ∀ high : Term,
      (bytes.foldl (fun high byte => high * .lit 256 + byte) high).isLit =
        (high.isLit && bytes.all isLit) from hacc (.lit 0)
  induction bytes with
  | nil => exact fun high => (Bool.and_true _).symm
  | cons byte bytes ih =>
    intro high
    have hshift : (high * .lit 256 + byte).isLit = (high.isLit && byte.isLit) :=
      (isLit_mkAdd _ byte).trans (congrArg (· && byte.isLit) (isLit_mkMul_256 high))
    rw [List.foldl_cons, ih, hshift, List.all_cons, Bool.and_assoc]

theorem ofBytes_lift (bytes : Bytes) : ofBytes bytes.lift = .lit bytes.value := by
  have hbytes : MeansBytes (fun _ => none) True bytes.lift bytes := .lift bytes
  exact hbytes.ofBytes.lit trivial

/-! ## Windows -/

/-- The literals among the terms are bytes; the other terms may be anything. -/
def LiteralBytes (terms : List Term) : Prop := ∀ v, lit v ∈ terms → 0 ≤ v ∧ v < 256

theorem literalBytes_lift (bytes : Bytes) : LiteralBytes bytes.lift := by
  intro v hv
  obtain ⟨b, -, hb⟩ := List.mem_map.mp hv
  cases hb
  exact ⟨Int.natCast_nonneg _, by exact_mod_cast b.toNat_lt⟩

/-- Literals that are bytes are known bytes. -/
theorem LiteralBytes.exists_lift {terms : List Term} (h : LiteralBytes terms)
    (hl : terms.all isLit) : ∃ bytes : Bytes, terms = bytes.lift := by
  induction terms with
  | nil => exact ⟨[], rfl⟩
  | cons t terms ih =>
    obtain ⟨ht, hterms⟩ : t.isLit ∧ terms.all isLit := by simpa using hl
    obtain ⟨v, rfl⟩ := isLit_iff.mp ht
    obtain ⟨hnonneg, hlt⟩ := h v List.mem_cons_self
    obtain ⟨bytes, rfl⟩ := ih (fun u hu => h u (List.mem_cons_of_mem _ hu)) hterms
    have hbyte : v.toNat < 256 := by omega
    have hv : ((UInt8.ofNat v.toNat).toNat : Int) = v := by
      rw [UInt8.toNat_ofNat_of_lt' hbyte, Int.toNat_of_nonneg hnonneg]
    refine ⟨UInt8.ofNat v.toNat :: bytes, ?_⟩
    rw [Bytes.lift, Bytes.lift, List.map_cons, nat, hv]

/-- Any 32 terms for bytes from which a word can be put together. -/
structure IsWindow (window : List Term) : Prop where
  length : window.length = 32
  literals : LiteralBytes window

/-- The literal that known bytes make, if a window makes a literal. -/
theorem IsWindow.exists_lift {window : List Term} (h : IsWindow window)
    (hl : (ofBytes window).isLit) :
    ∃ bytes : Bytes, window = bytes.lift ∧ bytes.length = 32 := by
  rw [isLit_ofBytes] at hl
  obtain ⟨bytes, rfl⟩ := h.literals.exists_lift hl
  exact ⟨bytes, rfl, (List.length_map _).symm.trans h.length⟩

end Term

namespace Word

variable {window : List Term}

/-- The word in known bytes. -/
theorem holds_ofBytes_lift {ρ : Assignment} {bytes : Bytes} (h : bytes.length = 32) :
    (ofBytes bytes.lift).Holds ρ True bytes.value :=
  holds_ofBytes (.lift bytes) (Bytes.value_lt_of_length_le h.le)

/-- **A word put together from a window is taken apart into that window.** -/
theorem toBytes_ofBytes_of_isWindow (h : Term.IsWindow window) :
    (ofBytes window).toBytes = window := by
  by_cases hl : (Term.ofBytes window).isLit
  · obtain ⟨bytes, rfl, hlen⟩ := h.exists_lift hl
    have hbytes := (holds_ofBytes_lift (ρ := fun _ => none) hlen).toBytes.lit trivial
    rw [hbytes, Bytes.ofWord_value hlen]
  · rw [toBytes_of_not_isLit hl, ofBytes, window?_of_eq h.length, Option.getD_some]

end Word

end SymbolicMachine
