import Mathlib
import SymbolicMachine.Proofs.Memory.Selection

/-!
# A bounded read is a read of what lies below the bound

`boundedWord` is the number that a bounded read is to give: a sum over 32 places, in which places
below zero, at the bound or past it, and past the end of the memory count as zero. The elements of
the memory may be any integers. Selection gives this number at every index, and so does the ordinary
read of the memory cut off at the bound. The main result `bounded_reads_exact` puts this together
for all ways that a bounded read may take.
-/

namespace SymbolicMachine

variable {ρ : Assignment} {known : Prop}

/-- The element at a place below a bound; zero for all other places. -/
def elementBelow (values : List Int) (n p : Int) : Int :=
  if 0 ≤ p ∧ p < min n values.length then values.getD p.toNat 0 else 0

/-- The number in the 32 elements below a bound from an index on, the first one most significant. -/
def boundedWord (values : List Int) (i n : Int) : Int :=
  ∑ j ∈ Finset.range 32, 256 ^ (31 - j) * elementBelow values n (i + j)

theorem elementBelow_eq (values : List Int) (n p : Int) :
    elementBelow values n p = if p < n then elementAt values p else 0 := by
  by_cases hp : 0 ≤ p
  · obtain ⟨m, rfl⟩ := Int.eq_ofNat_of_zero_le hp
    rw [elementAt_natCast]
    by_cases hn : (m : Int) < n
    · rw [if_pos hn]
      by_cases hend : m < values.length
      · exact if_pos ⟨hp, by omega⟩
      · rw [Padded.get_of_le 0 (by omega)]
        exact if_neg (by omega)
    · rw [if_neg hn]
      exact if_neg (by omega)
  · rw [elementAt_of_neg values (by omega), ite_self]
    exact if_neg (by omega)

/-- A bound past the end of the memory makes no difference. -/
theorem elementBelow_of_le {values : List Int} {n : Int} (h : values.length ≤ n) (p : Int) :
    elementBelow values n p = elementAt values p := by
  rw [elementBelow_eq]
  by_cases hp : p < n
  · rw [if_pos hp]
  · obtain ⟨m, rfl⟩ := Int.eq_ofNat_of_zero_le (show 0 ≤ p by omega)
    rw [if_neg hp, elementAt_natCast, Padded.get_of_le 0 (by omega)]

/-- Cutting the memory off at a bound leaves the elements below it. -/
theorem elementAt_take (values : List Int) (n : Nat) (p : Int) :
    elementAt (values.take n) p = elementBelow values n p := by
  rw [elementBelow_eq]
  by_cases hp : 0 ≤ p
  · obtain ⟨m, rfl⟩ := Int.eq_ofNat_of_zero_le hp
    simp only [elementAt_natCast, Padded.get, List.getD_eq_getElem?_getD, List.getElem?_take,
      Nat.cast_lt]
    split <;> rfl
  · rw [elementAt_of_neg _ (by omega), elementAt_of_neg _ (by omega), ite_self]

/-- Digits put together one by one give the sum of the digits with their weights. -/
theorem Integer.ofBytes_map_range (f : Nat → Int) (m : Nat) :
    Integer.ofBytes ((List.range m).map f) = ∑ j ∈ Finset.range m, 256 ^ (m - 1 - j) * f j := by
  induction m with
  | zero => rfl
  | succ m ih =>
    have hlast : Integer.ofBytes ((List.range (m + 1)).map f) =
        Integer.ofBytes ((List.range m).map f) * 256 + f m := by
      simp [Integer.ofBytes, List.range_succ]
    have hweights : ∀ j ∈ Finset.range m,
        256 ^ (m + 1 - 1 - j) * f j = 256 ^ (m - 1 - j) * f j * 256 := by
      intro j hj
      have hjm := Finset.mem_range.mp hj
      rw [show m + 1 - 1 - j = m - 1 - j + 1 by omega, pow_succ]
      ring
    rw [hlast, ih, Finset.sum_range_succ, Finset.sum_congr rfl hweights, Finset.sum_mul,
      Nat.add_sub_cancel, Nat.sub_self, pow_zero, one_mul]

theorem boundedWord_eq (values : List Int) (i n : Int) :
    boundedWord values i n =
      Integer.ofBytes ((List.range 32).map fun j : Nat => elementBelow values n (i + j)) :=
  (Integer.ofBytes_map_range _ 32).symm

/-! ## Selected words -/

theorem means_selectWord_bounded {index bound : Term} {terms : List Term} {values : List Int}
    {i n : Int} (hi : index.Means ρ known i) (hn : bound.Means ρ known n)
    (h : Term.MeansAll ρ known terms values) :
    (selectWord index bound terms).term.Means ρ known (boundedWord values i n) := by
  refine (means_selectWord hi hn h).congr ?_
  simp only [boundedWord_eq, elementBelow_eq]

theorem isLit_selectWord {index bound : Term} {terms : List Term} (hi : index.isLit)
    (hn : bound.isLit) (h : ∀ t ∈ terms, t.isLit) : (selectWord index bound terms).term.isLit := by
  obtain ⟨i, rfl⟩ := Term.isLit_iff.mp hi
  obtain ⟨n, rfl⟩ := Term.isLit_iff.mp hn
  obtain ⟨values, hvalues⟩ : ∃ values, Term.MeansAll (fun _ => none) True terms values :=
    Term.MeansAll.of_isLit h
  have hselected := means_selectWord_bounded (.ofLit i) (.ofLit n) hvalues
  exact Term.isLit_iff.mpr ⟨_, hselected.lit trivial⟩

namespace Buffer

/-! ## Bounded reads -/

variable {b : Buffer} {values : List Int}

theorem means_readWord (h : Term.MeansAll ρ known b.lift values) (i : Nat) :
    (b.readWord i).term.Means ρ known
      (Integer.ofBytes ((List.range 32).map fun j : Nat => elementAt values (i + j))) := by
  have hslice := Term.Means.ofBytes (Padded.rel_slice h (.ofLit 0) i 32)
  rw [readWord, term_readField b i (by decide)]
  refine hslice.congr ?_
  rw [Padded.slice_eq_map]
  simp only [← Nat.cast_add, elementAt_natCast]

/-- The ordinary read of a memory cut off at a bound. -/
theorem means_readWord_take (h : Term.MeansAll ρ known b.lift values) (i n : Nat) :
    ((b.take n).readWord i).term.Means ρ known (boundedWord values i n) := by
  have htake : Term.MeansAll ρ known (b.take n).lift (values.take n) := by
    rw [lift_take]
    exact List.forall₂_take n h
  refine (means_readWord htake i).congr ?_
  simp only [boundedWord_eq, elementAt_take]

/-- If nothing lies past the bound, the memory need not be cut off. -/
theorem means_readWord_of_le (h : Term.MeansAll ρ known b.lift values) (i : Nat) {n : Int}
    (hn : b.length ≤ n) : (b.readWord i).term.Means ρ known (boundedWord values i n) := by
  refine (means_readWord h i).congr ?_
  have hlength : (values.length : Int) ≤ n := by rwa [← h.length_eq, length_lift]
  simp only [boundedWord_eq, elementBelow_of_le hlength]

/-- A bounded read, whichever way it takes. -/
theorem means_readWordBounded {index bound : Word} {i n : Nat}
    (hi : index.term.Means ρ known (i : Int)) (hn : bound.term.Means ρ known (n : Int))
    (h : Term.MeansAll ρ known b.lift values)
    (hshort : index.term.isLit → ¬ bound.term.isLit → b.known?.isSome → b.length ≤ n) :
    (b.readWordBounded index bound).term.Means ρ known (boundedWord values i n) := by
  have hselected := means_selectWord_bounded hi hn h
  unfold readWordBounded
  split
  · rename_i k m hk hm
    rw [← Term.eq_of_natLit? hk hi.eval, ← Term.eq_of_natLit? hm hn.eval]
    exact means_readWord_take h i n
  · rename_i bytes k hk hm
    have hindex : index.term.isLit := Term.isLit_iff.mpr ⟨_, Term.natLit?_eq_some.mp hk⟩
    have hbound : ¬ bound.term.isLit := fun hl => by
      rw [Word.natLit?, hn.natLit? hl] at hm
      cases hm
    rw [← Term.eq_of_natLit? hk hi.eval]
    exact means_readWord_of_le h i (by exact_mod_cast hshort hindex hbound rfl)
  · exact hselected

/-- A read that is bounded by the length of the memory alone. -/
theorem means_readWordAt {index : Word} {i : Nat} (hi : index.term.Means ρ known (i : Int))
    (h : Term.MeansAll ρ known b.lift values) :
    (b.readWordAt index).term.Means ρ known (boundedWord values i b.length) := by
  unfold readWordAt
  split
  · rename_i k hk
    rw [← Term.eq_of_natLit? hk hi.eval]
    exact means_readWord_of_le h i le_rfl
  · exact means_readWordBounded hi (.ofNat b.length) h fun _ _ _ => le_rfl

/-- **Bounded reads are exact.** A selected word has the value of the word at the index below the
bound, whatever integers these are and whatever values the elements have, and it is a literal if all
of them are. So a bounded read of a memory has the value of the read of what lies below the bound,
on all its ways; only known bytes at a known index below an unknown bound are not cut off, and there
the bound is to reach their end. A read that is bounded by nothing but the memory has the value of
the ordinary read. -/
theorem bounded_reads_exact (ρ : Assignment) :
    (∀ (index bound : Term) (terms : List Term) (i n : Int) (values : List Int),
      index.compute ρ = some i → bound.compute ρ = some n →
      terms.map (Term.compute ρ) = values.map some →
      (selectWord index bound terms).term.compute ρ = some (boundedWord values i n)) ∧
    (∀ (index bound : Term) (terms : List Term),
      index.isLit → bound.isLit → (∀ t ∈ terms, t.isLit) →
      (selectWord index bound terms).term.isLit) ∧
    (∀ (b : Buffer) (index bound : Word) (i n : Nat) (values : List Int),
      index.Denotes ρ i → bound.Denotes ρ n → b.lift.map (Term.compute ρ) = values.map some →
      (index.term.isLit → ¬ bound.term.isLit → b.known?.isSome → b.length ≤ n) →
      (b.readWordBounded index bound).term.compute ρ = some (boundedWord values i n) ∧
      ((b.take n).readWord i).term.compute ρ = some (boundedWord values i n)) ∧
    (∀ (b : Buffer) (index : Word) (i : Nat) (values : List Int),
      index.Denotes ρ i → b.lift.map (Term.compute ρ) = values.map some →
      (b.readWordAt index).term.compute ρ = some (boundedWord values i b.length) ∧
      (b.readWord i).term.compute ρ = some (boundedWord values i b.length)) := by
  refine ⟨fun index bound terms i n values hi hn h => ?_, fun _ _ _ => isLit_selectWord,
    fun b index bound i n values hi hn h hshort => ?_, fun b index i values hi h => ?_⟩
  · exact (means_selectWord_bounded (.of_compute hi) (.of_compute hn) (.of_compute h)).compute
  · have hindex := Term.Means.of_compute hi.compute
    have hbound := Term.Means.of_compute hn.compute
    have hall := Term.MeansAll.of_compute h
    exact ⟨(means_readWordBounded hindex hbound hall hshort).compute,
      (means_readWord_take hall i n).compute⟩
  · have hall := Term.MeansAll.of_compute h
    exact ⟨(means_readWordAt (.of_compute hi.compute) hall).compute,
      (means_readWord_of_le hall i le_rfl).compute⟩

/-- An unknown index below an unknown bound, which leaves out the last of three bytes. -/
theorem bounded_reads_exact_below_bound :
    let ρ : Assignment := fun name => if name = "index" then some 1 else some 2
    let b := symbolic [.var "byte", .lit 7, .lit 9]
    (Word.named "index").Denotes ρ 1 ∧ (Word.named "bound").Denotes ρ 2 ∧
      b.lift.map (Term.compute ρ) = [2, 7, 9].map some ∧
      (b.readWordBounded (.named "index") (.named "bound")).term.compute ρ =
        some (7 * 256 ^ 31) ∧
      ((b.take 2).readWord 1).term.compute ρ = some (7 * 256 ^ 31) := by
  intro ρ b
  have hi : (Word.named "index").Denotes ρ 1 := ⟨Term.compute_eq_eval _, by norm_num⟩
  have hn : (Word.named "bound").Denotes ρ 2 := ⟨Term.compute_eq_eval _, by norm_num⟩
  have hb : b.lift.map (Term.compute ρ) = [2, 7, 9].map some := by
    rw [funext Term.compute_eq_eval]
    rfl
  have hvalue : boundedWord [2, 7, 9] 1 2 = 7 * 256 ^ 31 := by decide
  obtain ⟨-, -, hbounded, -⟩ := bounded_reads_exact ρ
  obtain ⟨hread, htake⟩ := hbounded b _ _ 1 2 _ hi hn hb fun hl => by cases hl
  exact ⟨hi, hn, hb, hread.trans (congrArg some hvalue), htake.trans (congrArg some hvalue)⟩

end Buffer

end SymbolicMachine
