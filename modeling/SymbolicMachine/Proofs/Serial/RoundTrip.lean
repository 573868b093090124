import Mathlib
import SymbolicMachine.Serial.Value
import SymbolicMachine.Proofs.Digits

/-!
# Storage loses nothing

A value that was stored is read back as it was: formulas node by node and without folding, tags with
their windows, buffers in their form. So different values are stored differently (`Lossless`).
Integers are read from more forms than they are stored in. Whatever form they are read from stands
for the sum of its digits with their weights and its sign, and of all forms of an integer exactly
one is canonical, the one it is stored in (`Integer.Canonical`). Main result:
`storage_loses_nothing`.
-/

namespace SymbolicMachine

/-! ## Lists of values -/

namespace Json

variable {α : Type} {write : α → Json} {read : Json → Option α}

theorem list?_map {xs : List α} (h : ∀ x ∈ xs, read (write x) = some x) :
    (arr (xs.map write)).list? read = some xs := by
  induction xs with
  | nil => rfl
  | cons x xs ih =>
    have hx := h x List.mem_cons_self
    have hxs : (xs.map write).mapM read = some xs :=
      ih fun y hy => h y (List.mem_cons_of_mem x hy)
    rw [list?, List.map_cons, List.mapM_cons, hx, hxs]
    rfl

/-- A list is read from the stored form of its elements only, if each element is. -/
theorem list?_eq_some_iff {p : α → Prop} (h : ∀ j x, read j = some x ↔ j = write x ∧ p x)
    {j : Json} {xs : List α} :
    j.list? read = some xs ↔ j = arr (xs.map write) ∧ ∀ x ∈ xs, p x := by
  constructor
  · intro hj
    cases j with
    | arr items =>
      rw [list?] at hj
      induction items generalizing xs with
      | nil =>
        cases hj
        exact ⟨rfl, fun x hx => nomatch hx⟩
      | cons item items ih =>
        rw [List.mapM_cons] at hj
        obtain ⟨x, hx, hj⟩ := Option.bind_eq_some_iff.mp hj
        obtain ⟨ys, hys, hj⟩ := Option.bind_eq_some_iff.mp hj
        cases hj
        obtain ⟨rfl, hpx⟩ := (h item x).mp hx
        obtain ⟨hitems, hpys⟩ := ih hys
        cases hitems
        exact ⟨rfl, List.forall_mem_cons.mpr ⟨hpx, hpys⟩⟩
    | _ => cases hj
  · rintro ⟨rfl, hp⟩
    exact list?_map fun x hx => (h _ x).mpr ⟨rfl, hp x hx⟩

theorem natBelow?_eq_some_iff {bound n : Nat} (j : Json) :
    j.natBelow? bound = some n ↔ j = nat n ∧ n < bound := by
  cases j with
  | int m =>
    simp only [natBelow?, Option.ite_none_right_eq_some, Option.some.injEq, nat, int.injEq]
    omega
  | _ => simp [natBelow?]

end Json

/-! ## Integers -/

namespace Integer

/-- The stored form with a sign and digits, whatever they are. -/
def stored (sign : Int) (digits : List Nat) : Json := .arr [.int sign, .arr (digits.map .nat)]

theorem stored_inj {s s' : Int} {ds ds' : List Nat} (h : stored s ds = stored s' ds') :
    s = s' ∧ ds = ds' := by
  have hnat : Function.Injective Json.nat := fun m n hmn => by
    cases hmn
    rfl
  simp only [stored, Json.arr.injEq, List.cons.injEq, Json.int.injEq, and_true] at h
  exact ⟨h.1, hnat.list_map h.2⟩

/-- The integers that are read from a stored form: any digits below the base will do, with any of
the three signs. -/
theorem ofJson?_eq_some_iff {j : Json} {x : Int} :
    ofJson? j = some x ↔ ∃ s ds, j = stored s ds ∧ (s = -1 ∨ s = 0 ∨ s = 1) ∧
      (∀ d ∈ ds, d < 2 ^ 32) ∧ x = s * ofDigits 32 ds := by
  have hlist : ∀ {j : Json} {ds : List Nat}, j.list? (Json.natBelow? (1 <<< 32)) = some ds ↔
      j = .arr (ds.map .nat) ∧ ∀ d ∈ ds, d < 2 ^ 32 :=
    Json.list?_eq_some_iff fun j n => Json.natBelow?_eq_some_iff j
  constructor
  · intro h
    unfold ofJson? at h
    split at h
    · rename_i sign items
      obtain ⟨s, hs, h⟩ := Option.bind_eq_some_iff.mp h
      obtain ⟨ds, hds, h⟩ := Option.bind_eq_some_iff.mp h
      cases h
      obtain ⟨rfl, hlt⟩ := hlist.mp hds
      cases sign with
      | int m =>
        simp only [signOfJson?, Option.ite_none_right_eq_some, Option.some.injEq] at hs
        obtain ⟨hm, rfl⟩ := hs
        exact ⟨m, ds, rfl, hm, hlt, rfl⟩
      | _ => cases hs
    · cases h
  · rintro ⟨s, ds, rfl, hs, hlt, rfl⟩
    have hsign : signOfJson? (.int s) = some s := if_pos hs
    rw [stored, ofJson?, hsign, hlist.mpr ⟨rfl, hlt⟩]
    rfl

/-- A sign and digits without superfluous parts: the digits are below the base, the highest one is
not zero, and the sign is zero if and only if there are none. -/
structure Canonical (s : Int) (ds : List Nat) : Prop where
  lt : ∀ d ∈ ds, d < 2 ^ 32
  high : ds.getLast? ≠ some 0
  sign : (s = 0 ∧ ds = []) ∨ ((s = 1 ∨ s = -1) ∧ ds ≠ [])

theorem digits_eq_nil_iff {n : Nat} : digits 32 (digitCount 32 n) n = [] ↔ n = 0 := by
  rw [← List.length_eq_zero_iff, length_digits, digitCount]
  by_cases h : n = 0
  · simp [h]
  · rw [if_neg h]
    exact iff_of_false (Nat.succ_ne_zero _) h

theorem canonical_sign_digits (x : Int) :
    Canonical x.sign (digits 32 (digitCount 32 x.natAbs) x.natAbs) where
  lt _ hd := lt_of_mem_digits hd
  high := getLast?_digits_digitCount (by decide) x.natAbs
  sign := by
    rw [Ne, digits_eq_nil_iff, Int.natAbs_eq_zero]
    rcases lt_trichotomy x 0 with h | rfl | h
    · exact .inr ⟨.inr (Int.sign_eq_neg_one_of_neg h), h.ne⟩
    · exact .inl ⟨rfl, rfl⟩
    · exact .inr ⟨.inl (Int.sign_eq_one_of_pos h), h.ne'⟩

/-- A canonical form is found again from the integer that it stands for. -/
theorem Canonical.unique {s : Int} {ds : List Nat} (h : Canonical s ds) :
    toJson (s * ofDigits 32 ds) = stored s ds := by
  have hds := digits_ofDigits (by decide) h.lt h.high
  rcases h.sign with ⟨rfl, rfl⟩ | ⟨hs, hne⟩
  · rfl
  · have hpos : 0 < (ofDigits 32 ds : Int) := by
      have h0 : ofDigits 32 ds ≠ 0 := fun h0 => by
        rw [h0] at hds
        exact hne hds.symm
      exact_mod_cast Nat.pos_of_ne_zero h0
    have hsign : (s * (ofDigits 32 ds : Int)).sign = s := by
      rw [Int.sign_mul, Int.sign_eq_one_of_pos hpos, Int.mul_one]
      rcases hs with rfl | rfl <;> rfl
    have habs : (s * (ofDigits 32 ds : Int)).natAbs = ofDigits 32 ds := by
      rw [Int.natAbs_mul, Int.natAbs_natCast]
      rcases hs with rfl | rfl <;> exact Nat.one_mul _
    rw [toJson, hsign, habs, hds]
    rfl

theorem toJson_eq_stored_iff {x s : Int} {ds : List Nat} :
    toJson x = stored s ds ↔ Canonical s ds ∧ x = s * ofDigits 32 ds := by
  constructor
  · intro h
    obtain ⟨rfl, rfl⟩ := stored_inj h
    refine ⟨canonical_sign_digits x, ?_⟩
    rw [ofDigits_digits_digitCount (by decide), Int.sign_mul_natAbs]
  · rintro ⟨h, rfl⟩
    exact h.unique

theorem ofJson?_toJson (x : Int) : ofJson? (toJson x) = some x := by
  obtain ⟨hcanonical, hx⟩ := toJson_eq_stored_iff.mp (rfl : toJson x = stored _ _)
  refine ofJson?_eq_some_iff.mpr ⟨_, _, rfl, ?_, hcanonical.lt, hx⟩
  rcases hcanonical.sign with ⟨hs, -⟩ | ⟨hs | hs, -⟩
  · exact .inr (.inl hs)
  · exact .inr (.inr hs)
  · exact .inl hs

end Integer

/-! ## Formulas -/

theorem BinaryOp.ofName?_variantName (op : BinaryOp) : ofName? op.variantName = some op := by
  cases op <;> rfl

theorem ModularOp.ofName?_variantName (op : ModularOp) : ofName? op.variantName = some op := by
  cases op <;> rfl

theorem Comparison.ofName?_variantName (op : Comparison) : ofName? op.variantName = some op := by
  cases op <;> rfl

theorem Json.name?_str (name : String) : (str name).name? = some name := rfl

mutual
theorem Term.ofJson?_toJson (t : Term) : Term.ofJson? t.toJson = some t := by
  cases t with
  | lit v => rw [Term.toJson, Json.variant, Term.ofJson?, Integer.ofJson?_toJson]; rfl
  | var name => rw [Term.toJson, Json.variant, Term.ofJson?]; rfl
  | popcount t => rw [Term.toJson, Json.variant, Term.ofJson?, t.ofJson?_toJson]; rfl
  | binary op l r =>
    rw [Term.toJson, Json.variant, Term.ofJson?, Json.name?_str, Option.bind_some,
      op.ofName?_variantName, l.ofJson?_toJson, r.ofJson?_toJson]
    rfl
  | modular op x y m =>
    rw [Term.toJson, Json.variant, Term.ofJson?, Json.name?_str, Option.bind_some,
      op.ofName?_variantName, x.ofJson?_toJson, y.ofJson?_toJson, m.ofJson?_toJson]
    rfl
  | ite c t e =>
    rw [Term.toJson, Json.variant, Term.ofJson?, c.ofJson?_toJson, t.ofJson?_toJson,
      e.ofJson?_toJson]
    rfl

theorem Cond.ofJson?_toJson (c : Cond) : Cond.ofJson? c.toJson = some c := by
  cases c with
  | lit b => rw [Cond.toJson, Json.variant, Cond.ofJson?]
  | compare op l r =>
    rw [Cond.toJson, Json.variant, Cond.ofJson?, Json.name?_str, Option.bind_some,
      op.ofName?_variantName, l.ofJson?_toJson, r.ofJson?_toJson]
    rfl
  | not c => rw [Cond.toJson, Json.variant, Cond.ofJson?, c.ofJson?_toJson]; rfl
  | and c d => rw [Cond.toJson, Json.variant, Cond.ofJson?, c.ofJson?_toJson, d.ofJson?_toJson]; rfl
  | or c d => rw [Cond.toJson, Json.variant, Cond.ofJson?, c.ofJson?_toJson, d.ofJson?_toJson]; rfl
end

/-! ## Values -/

theorem Json.list?_terms (terms : List Term) :
    (arr (terms.map Term.toJson)).list? Term.ofJson? = some terms :=
  list?_map fun t _ => t.ofJson?_toJson

theorem Origin.ofJson?_toJson (o : Origin) : Origin.ofJson? o.toJson = some o := by
  cases o with
  | bytes window =>
    have hwindow := Json.list?_terms window
    change ((Json.arr (window.map Term.toJson)).list? Term.ofJson?).map Origin.bytes = _
    rw [hwindow]
    rfl
  | _ => rfl

theorem Origin.ofJsonWith?_toJsonWith (o : Origin) (t : Term) :
    Origin.ofJsonWith? (o.toJsonWith t) = some (o, t) := by
  change (do
    let o ← Origin.ofJson? o.toJson
    return (o, ← Term.ofJson? t.toJson)) = _
  rw [o.ofJson?_toJson, t.ofJson?_toJson]
  rfl

theorem Word.ofJson?_toJson (w : Word) : Word.ofJson? w.toJson = some w := by
  rw [toJson, ofJson?, Origin.ofJsonWith?_toJsonWith]
  rfl

theorem Address.ofJson?_toJson (a : Address) : Address.ofJson? a.toJson = some a := by
  rw [toJson, ofJson?, Origin.ofJsonWith?_toJsonWith]
  rfl

theorem Buffer.ofJson?_toJson (b : Buffer) : Buffer.ofJson? b.toJson = some b := by
  cases b with
  | known bytes =>
    have hitem : ∀ n ∈ bytes.map UInt8.toNat, Json.natBelow? 256 (.nat n) = some n := by
      intro n hn
      obtain ⟨b, -, rfl⟩ := List.mem_map.mp hn
      exact (Json.natBelow?_eq_some_iff _).mpr ⟨rfl, b.toNat_lt⟩
    have hread : (Json.arr (bytes.map fun b => .nat b.toNat)).list? (Json.natBelow? 256) =
        some (bytes.map UInt8.toNat) := by
      have hnumbers := Json.list?_map hitem
      rwa [List.map_map] at hnumbers
    have hbytes : (bytes.map UInt8.toNat).map UInt8.ofNat = bytes := by
      rw [List.map_map]
      exact List.map_id'' (fun _ => UInt8.ofNat_toNat) bytes
    rw [toJson, Json.variant, ofJson?, hread, Option.map_some, hbytes]
  | symbolic terms =>
    rw [toJson, Json.variant, ofJson?, Json.list?_terms]
    rfl

/-! ## The round trip -/

/-- Reading undoes writing, so that different values are written differently. -/
structure Lossless {α : Type} (write : α → Json) (read : Json → Option α) : Prop where
  read_write : ∀ x, read (write x) = some x
  injective : Function.Injective write

theorem Lossless.of_read_write {α : Type} {write : α → Json} {read : Json → Option α}
    (h : ∀ x, read (write x) = some x) : Lossless write read := by
  refine ⟨h, fun x y hxy => ?_⟩
  have hx := h x
  rw [hxy, h y] at hx
  exact (Option.some.inj hx).symm

/-- **Storage loses nothing.** Every formula, word, address, buffer and tag is read back as it was
stored. An integer is read from any sign and any digits below the base: it is their sum with their
weights, times the sign. It is stored in the one canonical form that it has. -/
theorem storage_loses_nothing :
    (Lossless Term.toJson Term.ofJson? ∧ Lossless Cond.toJson Cond.ofJson? ∧
      Lossless Word.toJson Word.ofJson? ∧ Lossless Address.toJson Address.ofJson? ∧
      Lossless Buffer.toJson Buffer.ofJson? ∧ Lossless Origin.toJson Origin.ofJson?) ∧
    (∀ j x, Integer.ofJson? j = some x ↔
      ∃ s ds, j = Integer.stored s ds ∧ (s = -1 ∨ s = 0 ∨ s = 1) ∧ (∀ d ∈ ds, d < 2 ^ 32) ∧
        x = s * ∑ i ∈ Finset.range ds.length, (ds.getD i 0 : Int) * 2 ^ (32 * i)) ∧
    (∀ x, ∃ s ds, Integer.toJson x = Integer.stored s ds) ∧
    (∀ x s ds, Integer.toJson x = Integer.stored s ds ↔
      Integer.Canonical s ds ∧
        x = s * ∑ i ∈ Finset.range ds.length, (ds.getD i 0 : Int) * 2 ^ (32 * i)) := by
  have hsum : ∀ ds : List Nat, (Integer.ofDigits 32 ds : Int) =
      ∑ i ∈ Finset.range ds.length, (ds.getD i 0 : Int) * 2 ^ (32 * i) := by
    intro ds
    rw [Integer.ofDigits_eq_sum]
    push_cast
    rfl
  simp only [← hsum]
  exact ⟨⟨.of_read_write Term.ofJson?_toJson, .of_read_write Cond.ofJson?_toJson,
    .of_read_write Word.ofJson?_toJson, .of_read_write Address.ofJson?_toJson,
    .of_read_write Buffer.ofJson?_toJson, .of_read_write Origin.ofJson?_toJson⟩,
    fun _ _ => Integer.ofJson?_eq_some_iff, fun _ => ⟨_, _, rfl⟩,
    fun _ _ _ => Integer.toJson_eq_stored_iff⟩

/-- A negative zero with two superfluous digits is read as zero, which is stored without digits; a
word that no constructor would fold so keeps its formula and its window. -/
theorem storage_loses_nothing_of_negative_zero :
    let w := Word.mk (.bytes [.binary .add (.lit 1) (.lit (-2))]) (.binary .add (.lit 0) (.var "x"))
    Integer.ofJson? (Integer.stored (-1) [0, 0]) = some 0 ∧
      Integer.toJson 0 = Integer.stored 0 [] ∧
      Word.ofJson? w.toJson = some w := by
  intro w
  obtain ⟨⟨-, -, hword, -⟩, hread, -, hwrite⟩ := storage_loses_nothing
  refine ⟨(hread _ 0).mpr ⟨-1, [0, 0], rfl, .inl rfl, by decide, by decide⟩,
    (hwrite 0 0 []).mpr ⟨⟨by decide, by decide, .inl ⟨rfl, rfl⟩⟩, rfl⟩, hword.read_write w⟩

end SymbolicMachine
