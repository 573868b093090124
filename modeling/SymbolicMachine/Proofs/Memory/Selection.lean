import Mathlib
import SymbolicMachine.Memory.Selection
import SymbolicMachine.Proofs.Memory.Access

/-!
# Selection reads the selected bytes

A chain of choices over all bytes of a memory means the byte at the value of the index, and zero if
the index is out of range (`means_selectByte`). With a bound in front of it, and for the 32 places
of a word, that is the word that the memory holds below the bound (`means_selectWord`). A read at a
word that may be unknown is therefore an ordinary read at its value (`Buffer.Means.readWordAt`).
-/

namespace SymbolicMachine

variable {ρ : Assignment} {known : Prop} {terms : List Term} {values : List Int}

/-- The element at an index that may be negative or too large; zero if it is. -/
def elementAt (values : List Int) (i : Int) : Int :=
  if 0 ≤ i then Padded.get 0 values i.toNat else 0

theorem elementAt_natCast (values : List Int) (i : Nat) :
    elementAt values i = Padded.get 0 values i := by
  rw [elementAt, if_pos (Int.natCast_nonneg i), Int.toNat_natCast]

theorem elementAt_of_neg (values : List Int) {p : Int} (h : p < 0) : elementAt values p = 0 :=
  if_neg (by omega)

theorem elementAt_cons_zero (v : Int) (values : List Int) : elementAt (v :: values) 0 = v := rfl

theorem elementAt_cons_of_ne {i : Int} (v : Int) (values : List Int) (hi : i ≠ 0) :
    elementAt (v :: values) i = elementAt values (i - 1) := by
  unfold elementAt
  by_cases h : 0 ≤ i
  · obtain ⟨n, hn⟩ : ∃ n, i.toNat = n + 1 := Nat.exists_eq_add_one.mpr (by omega)
    rw [if_pos h, if_pos (by omega), hn, show (i - 1).toNat = n by omega]
    rfl
  · rw [if_neg h, if_neg (by omega)]

/-- Of the bytes from place `k` on, the chain takes the one that the index names. -/
theorem means_selectFrom {index : Term} {i : Int} (hi : index.Means ρ known i)
    (h : Term.MeansAll ρ known terms values) (k : Nat) :
    (((terms.zipIdx k).foldr (fun (byte, k) rest =>
      .mkIte (.mkEq (index - .nat k) (.lit 0)) byte rest) (.lit 0) : Term)).Means ρ known
        (elementAt values (i - k)) := by
  induction h generalizing k with
  | nil =>
    refine (Term.Means.ofLit 0).congr ?_
    unfold elementAt
    split <;> rfl
  | @cons t v terms values ht _ ih =>
    have counter : (index - .nat k : Term).Means ρ known (i - k) := hi.binary (.ofNat k) rfl
    apply Term.Means.ite (.compare counter (.ofLit 0))
    · intro h
      have hk : i - k = 0 := by simpa [Comparison.holds] using h
      rw [hk, elementAt_cons_zero]
      exact ht
    · intro h
      have hk : i - k ≠ 0 := by simpa [Comparison.holds] using h
      rw [elementAt_cons_of_ne v values hk, show i - k - 1 = i - (k + 1 : Nat) by omega]
      exact ih (k + 1)

theorem means_selectByte {index : Term} {i : Int} (hi : index.Means ρ known i)
    (h : Term.MeansAll ρ known terms values) :
    (selectByte index terms).Means ρ known (elementAt values i) :=
  (means_selectFrom hi h 0).congr (by rw [Nat.cast_zero, Int.sub_zero])

/-- Zero in place of the elements that lie at the bound or past it. -/
def boundValues (n : Int) (values : List Int) : List Int :=
  values.zipIdx.map fun (v, i) => if n < (i + 1 : Nat) then 0 else v

theorem means_boundBytes {bound : Term} {n : Int} (hn : bound.Means ρ known n)
    (h : Term.MeansAll ρ known terms values) :
    Term.MeansAll ρ known (boundBytes bound terms) (boundValues n values) := by
  refine List.forall₂_map_left_iff.mpr (List.forall₂_map_right_iff.mpr
    (List.forall₂_iff_get.mpr ⟨by simp [h.length_eq], fun i hi hi' => ?_⟩))
  simp only [List.get_eq_getElem, List.getElem_zipIdx, Nat.zero_add]
  apply Term.Means.ite (.compare hn (.ofNat (i + 1)))
  · intro hb
    rw [if_pos (by simpa [Comparison.holds] using hb)]
    exact .ofLit 0
  · intro hb
    rw [if_neg (by simpa [Comparison.holds] using hb)]
    exact h.get _ _

theorem elementAt_boundValues (n : Int) (values : List Int) (i : Int) :
    elementAt (boundValues n values) i = if i < n then elementAt values i else 0 := by
  unfold elementAt
  by_cases h : 0 ≤ i
  · obtain ⟨m, rfl⟩ := Int.eq_ofNat_of_zero_le h
    simp only [if_pos h, Int.toNat_natCast, Padded.get, boundValues, List.getD_eq_getElem?_getD,
      List.getElem?_map, List.getElem?_zipIdx, Nat.zero_add]
    cases values[m]? with
    | none => simp
    | some v =>
      simp only [Option.map_some, Option.getD_some]
      split <;> split <;> omega
  · simp [h]

/-- One byte of a selected word: the one at its place, if that is below the bound. -/
theorem means_selectBounded {index bound : Term} {i n : Int} (hi : index.Means ρ known i)
    (hn : bound.Means ρ known n) (h : Term.MeansAll ρ known terms values) (j : Nat) :
    (selectByte (index + .nat j) (boundBytes bound terms)).Means ρ known
      (if i + j < n then elementAt values (i + j) else 0) :=
  (means_selectByte (hi.binary (.ofNat j) rfl) (means_boundBytes hn h)).congr
    (elementAt_boundValues n values (i + j))

/-- The selected word is put together from the 32 elements from the index on, with zeros for those
at the bound or past it. -/
theorem means_selectWord {index bound : Term} {i n : Int} (hi : index.Means ρ known i)
    (hn : bound.Means ρ known n) (h : Term.MeansAll ρ known terms values) :
    (selectWord index bound terms).term.Means ρ known
      (Integer.ofBytes ((List.range 32).map fun j : Nat =>
        if i + j < n then elementAt values (i + j) else 0)) := by
  apply Term.Means.ofBytes
  apply forall₂_map
  intro j _
  exact means_selectBounded hi hn h j

namespace Buffer

variable {b : Buffer} {bytes : Bytes}

theorem elementAt_bytes (bytes : Bytes) (i : Nat) :
    elementAt (bytes.map fun b => (b.toNat : Int)) i = ((bytes.readByte i).toNat : Int) := by
  rw [elementAt_natCast]
  exact Padded.get_map (fun b : UInt8 => (b.toNat : Int)) 0 bytes i

/-- If the bound is the length, the selected bytes are those of an ordinary read. -/
theorem Means.selected {index : Term} {i : Nat} (h : b.Means ρ known bytes)
    (hi : index.Means ρ known (i : Int)) :
    Term.MeansBytes ρ known ((List.range wordBytes).map fun j =>
      selectByte (index + .nat j) (boundBytes (.nat b.length) b.lift))
      (bytes.slice i wordBytes) := by
  rw [Bytes.slice, Padded.slice_eq_map]
  apply forall₂_map
  intro j _
  refine (means_selectBounded hi (.ofNat b.length) (Term.MeansBytes.all h) j).congr ?_
  rw [← Nat.cast_add, elementAt_bytes, h.length_eq]
  split
  · rfl
  · rw [Padded.get_of_le 0 (by omega)]
    rfl

/-- At an unknown index every word is selected. -/
theorem readWordBounded_of_unknown {index : Word} (h : index.natLit? = none) (bound : Word) :
    b.readWordBounded index bound = selectWord index.term bound.term b.lift := by
  unfold readWordBounded
  rw [h]

theorem Means.readWordAt {index : Word} {i : Nat} (h : b.Means ρ known bytes)
    (hi : index.Means ρ known i) :
    (b.readWordAt index).Holds ρ known (bytes.readWord i) := by
  unfold Buffer.readWordAt
  cases hn : index.natLit? with
  | some m =>
    rw [Term.eq_of_natLit? hn hi.term.eval]
    exact h.readField m (by decide)
  | none =>
    rw [readWordBounded_of_unknown hn]
    exact Word.holds_ofBytes (h.selected hi.term) (Bytes.readField_lt bytes i (by decide))

end Buffer

end SymbolicMachine
