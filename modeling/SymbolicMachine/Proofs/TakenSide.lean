import Mathlib
import SymbolicMachine.Proofs.Join
import SymbolicMachine.Proofs.Word.Tags

/-!
# A join is read as the side taken

Where the condition has a truth value, a join has the value of the side that is taken, and none if
that side has none: nothing is asked of the other side. This holds of formulas, whatever folding
makes of the choice between them, and it is carried from them to words and addresses, byte by byte
to memory (`Buffer.readByte_join`), and place by place to lists of anything that can be joined
(`JoinLaw.list`). Values with the same formulas join to these formulas under any condition. Main
result: `joins_pick_side_taken`.
-/

namespace SymbolicMachine

variable {ρ : Assignment} {c : Cond} {taken : Bool}

/-! ## Choices between formulas -/

theorem Term.mkIte_self (c : Cond) (t : Term) : mkIte c t t = t := by
  cases c with
  | lit b => exact ite_self t
  | _ => exact if_pos (beq_self_eq_true t)

theorem Term.eval_mkIte_eq (hc : c.eval ρ = some taken) (t e : Term) :
    (mkIte c t e).eval ρ = (if taken then t else e).eval ρ := by
  unfold mkIte
  split
  · cases hc
    rfl
  · split_ifs with hte htaken htaken
    · rfl
    · rw [beq_iff_eq.mp hte]
    · rw [eval, hc, htaken]
      rfl
    · rw [eval, hc, Bool.eq_false_of_not_eq_true htaken]
      rfl

namespace Cond

variable {d : Cond}

/-- A conjunction whose left side is true has the value of its right side. -/
theorem eval_mkAnd_of_left (hc : c.eval ρ = some true) (d : Cond) :
    (mkAnd c d).eval ρ = d.eval ρ := by
  unfold mkAnd
  split_ifs with habsorb hleft hright hsame
  · rcases habsorb with hfalse | hfalse
    · cases eq_of_eval_lit hfalse hc
    · rw [hfalse]
  · rfl
  · rw [hc, hright]
    rfl
  · rw [beq_iff_eq.mp hsame]
  · rw [eval, hc]
    rfl

/-- A disjunction whose left side is false has the value of its right side. -/
theorem eval_mkOr_of_left (hc : c.eval ρ = some false) (d : Cond) :
    (mkOr c d).eval ρ = d.eval ρ := by
  unfold mkOr
  split_ifs with habsorb hleft hright hsame
  · rcases habsorb with htrue | htrue
    · cases eq_of_eval_lit htrue hc
    · rw [htrue]
  · rfl
  · rw [hc, hright]
    rfl
  · rw [beq_iff_eq.mp hsame]
  · rw [eval, hc]
    rfl

/-- A disjunction whose right side is false has the value of its left side, and none if that has
none. -/
theorem eval_mkOr_of_right (c : Cond) (hd : d.eval ρ = some false) :
    (mkOr c d).eval ρ = c.eval ρ := by
  unfold mkOr
  split_ifs with habsorb hleft hright hsame
  · rcases habsorb with htrue | htrue
    · rw [htrue]
    · cases eq_of_eval_lit htrue hd
  · rw [hd, hleft]
    rfl
  · rfl
  · rfl
  · rw [eval, hd]
    rcases c.eval ρ with _ | _ | _ <;> rfl

theorem eval_join (hc : c.eval ρ = some taken) (p q : Cond) :
    (join c p q).eval ρ = (if taken then p else q).eval ρ := by
  have hnot : c.mkNot.eval ρ = some !taken := by
    apply eval_mkNot
    rw [eval, hc]
    rfl
  change (if p == q then p else mkOr (mkAnd c p) (mkAnd c.mkNot q)).eval ρ = _
  split_ifs with hpq htaken htaken
  · rfl
  · rw [beq_iff_eq.mp hpq]
  · rw [htaken] at hc hnot
    have helse : (mkAnd c.mkNot q).eval ρ = some false := by
      apply eval_mkAnd
      rw [eval, hnot]
      rfl
    rw [eval_mkOr_of_right _ helse, eval_mkAnd_of_left hc]
  · rw [Bool.eq_false_of_not_eq_true htaken] at hc hnot
    have hthen : (mkAnd c p).eval ρ = some false := by
      apply eval_mkAnd
      rw [eval, hc]
      rfl
    rw [eval_mkOr_of_left hthen, eval_mkAnd_of_left hnot]

theorem join_self (c p : Cond) : join c p p = p := if_pos (beq_self_eq_true p)

end Cond

theorem Term.compute_join (hc : c.compute ρ = some taken) (t e : Term) :
    (join c t e).compute ρ = (if taken then t else e).compute ρ := by
  rw [Cond.compute_eq_eval] at hc
  rw [compute_eq_eval, compute_eq_eval]
  exact eval_mkIte_eq hc t e

theorem Word.term_join (c : Cond) (v w : Word) : (join c v w).term = join c v.term w.term := by
  change (if v.term == w.term then v else _).term = _
  split_ifs with hvw
  · rw [← beq_iff_eq.mp hvw]
    exact (Term.mkIte_self c v.term).symm
  · rfl

theorem Address.term_join (c : Cond) (a b : Address) :
    (join c a b).term = join c a.term b.term := by
  change (if a.term == b.term then a else _).term = _
  split_ifs with hab
  · rw [← beq_iff_eq.mp hab]
    exact (Term.mkIte_self c a.term).symm
  · rfl

/-! ## Lists -/

theorem Padded.get_zipWith {α β γ : Type} (f : α → β → γ) (x : α) (y : β) (z : γ) {xs : List α}
    {ys : List β} {i : Nat} (hx : i < xs.length) (hy : i < ys.length) :
    get z (List.zipWith f xs ys) i = f (get x xs i) (get y ys i) := by
  have hi : i < (List.zipWith f xs ys).length := by
    rw [List.length_zipWith]
    exact lt_min hx hy
  rw [get, get, get, List.getD_eq_getElem _ _ hi, List.getD_eq_getElem _ _ hx,
    List.getD_eq_getElem _ _ hy, List.getElem_zipWith]

section Lists

variable {α : Type} [Join α] [Inhabited α]

theorem length_joinLists (c : Cond) (xs ys : List α) :
    (joinLists c xs ys).length = max xs.length ys.length := by
  simp only [joinLists, List.rightpad, List.length_zipWith, List.length_append,
    List.length_replicate]
  omega

/-- At each place the join of two lists has the join of what they have there. -/
theorem get_joinLists (c : Cond) {xs ys : List α} {i : Nat} (hi : i < max xs.length ys.length) :
    Padded.get default (joinLists c xs ys) i =
      join c (Padded.get default xs i) (Padded.get default ys i) := by
  rw [joinLists, Padded.get_zipWith (join c) default default]
  · rw [Padded.get_rightpad, Padded.get_rightpad]
  · simp only [List.rightpad, List.length_append, List.length_replicate]
    omega
  · simp only [List.rightpad, List.length_append, List.length_replicate]
    omega

end Lists

/-- Formulas are joined at every place, because past the end of both lists there is nothing to
choose from. -/
theorem Term.get_joinLists (c : Cond) (xs ys : List Term) (i : Nat) :
    Padded.get (lit 0) (joinLists c xs ys) i =
      mkIte c (Padded.get (lit 0) xs i) (Padded.get (lit 0) ys i) := by
  by_cases hi : i < max xs.length ys.length
  · exact SymbolicMachine.get_joinLists c hi
  · have hx : xs.length ≤ i := by omega
    have hy : ys.length ≤ i := by omega
    rw [Padded.get_of_le _ hx, Padded.get_of_le _ hy, mkIte_self, Padded.get_of_le]
    rw [length_joinLists]
    omega

/-! ## Memory -/

theorem Term.joinLists_self (c : Cond) (xs : List Term) : joinLists c xs xs = xs := by
  apply Padded.ext (x := lit 0)
  · rw [length_joinLists, max_self]
  · intro i
    rw [get_joinLists, mkIte_self]

namespace Buffer

variable {a b : Buffer}

/-- Whatever their forms, buffers are joined as lists of formulas. -/
theorem lift_join (c : Cond) (a b : Buffer) : (join c a b).lift = joinLists c a.lift b.lift := by
  cases a with
  | symbolic terms => rfl
  | known bytes =>
    cases b with
    | symbolic terms => rfl
    | known bytes' =>
      rw [join]
      split_ifs with h
      · rw [h, Term.joinLists_self]
      · rfl

theorem length_join (c : Cond) (a b : Buffer) : (join c a b).length = max a.length b.length := by
  rw [← length_lift, lift_join, length_joinLists, length_lift, length_lift]

theorem readByte_join (c : Cond) (a b : Buffer) (offset : Nat) :
    (join c a b).readByte offset = .mkIte c (a.readByte offset) (b.readByte offset) := by
  rw [readByte_eq, lift_join, Term.get_joinLists, readByte_eq, readByte_eq]

theorem compute_readByte_join (hc : c.compute ρ = some taken) (a b : Buffer) (offset : Nat) :
    ((join c a b).readByte offset).compute ρ =
      ((if taken then a else b).readByte offset).compute ρ := by
  rw [readByte_join]
  cases taken <;> exact Term.compute_join hc _ _

/-- Numbers in memory have the same value if all bytes have. -/
theorem compute_readField_congr {width : Nat} (hw : width ≤ 32)
    (h : ∀ p, (a.readByte p).compute ρ = (b.readByte p).compute ρ) (offset : Nat) :
    (a.readField offset width).term.compute ρ = (b.readField offset width).term.compute ρ := by
  rw [term_readField a offset hw, term_readField b offset hw]
  apply Term.compute_ofBytes_congr
  rw [Padded.slice_eq_map, Padded.slice_eq_map, List.map_map, List.map_map]
  refine List.map_congr_left fun j _ => ?_
  simp only [Function.comp_apply, ← readByte_eq, h]

end Buffer

/-! ## The law -/

/-- The join `r` has the value of the side `x` that is taken. -/
def SameValue {α β : Type} (value : Assignment → α → β) (ρ : Assignment) (r x _y : α) : Prop :=
  value ρ r = value ρ x

/-- The join `r` of two memories is as long as the longer one, and whatever is read from it has the
value that it has in the memory `x` that is taken. -/
structure Buffer.Picks (ρ : Assignment) (r x y : Buffer) : Prop where
  length : r.length = max x.length y.length
  readByte : ∀ p, (r.readByte p).compute ρ = (x.readByte p).compute ρ
  readWord : ∀ p, (r.readWord p).term.compute ρ = (x.readWord p).term.compute ρ
  readSelector : ∀ p, (r.readSelector p).term.compute ρ = (x.readSelector p).term.compute ρ

/-- The join `r` of two lists is as long as the longer one, and at each of its places it is what
`Picks` asks of the elements there; the default stands in for one that is missing. -/
structure ListPicks {α : Type} [Inhabited α] (Picks : Assignment → α → α → α → Prop)
    (ρ : Assignment) (r x y : List α) : Prop where
  length : r.length = max x.length y.length
  place : ∀ i < r.length,
    Picks ρ (Padded.get default r i) (Padded.get default x i) (Padded.get default y i)

/-- What is asked of the joins of a type of values. Under an assignment that decides the condition,
`Picks` holds of the join, the side taken and the other one. Sides with the same formulas join to
them under any condition, decided or not. -/
structure JoinLaw {α φ : Type} [Join α] (formulas : α → φ)
    (Picks : Assignment → α → α → α → Prop) : Prop where
  picks : ∀ {ρ : Assignment} {c : Cond} {taken : Bool}, c.compute ρ = some taken → ∀ x y : α,
    Picks ρ (join c x y) (if taken then x else y) (if taken then y else x)
  self : ∀ (c : Cond) {x y : α}, formulas x = formulas y → formulas (join c x y) = formulas x

/-- Values that are joined by their formulas. -/
theorem JoinLaw.of_term {α : Type} [Join α] {term : α → Term}
    (h : ∀ (c : Cond) (x y : α), term (join c x y) = join c (term x) (term y)) :
    JoinLaw term (SameValue fun ρ x => (term x).compute ρ) where
  picks hc x y := by
    rw [SameValue, h, Term.compute_join hc, apply_ite term]
  self c x y heq := by
    rw [h, heq]
    exact Term.mkIte_self c (term y)

theorem Term.joinLaw : JoinLaw id (SameValue Term.compute) := .of_term fun _ _ _ => rfl

theorem Word.joinLaw : JoinLaw Word.term (SameValue fun ρ w => w.term.compute ρ) :=
  .of_term term_join

theorem Address.joinLaw : JoinLaw Address.term (SameValue fun ρ a => a.term.compute ρ) :=
  .of_term term_join

theorem Cond.joinLaw : JoinLaw id (SameValue Cond.compute) where
  picks hc x y := by
    rw [compute_eq_eval] at hc
    rw [SameValue, compute_eq_eval, compute_eq_eval]
    exact eval_join hc x y
  self c x y h := by
    cases h
    exact join_self c x

/-- It does not matter for the longer length which side is taken. -/
theorem max_length_taken {α : Type} (taken : Bool) (length : α → Nat) (x y : α) :
    max (length (if taken then x else y)) (length (if taken then y else x)) =
      max (length x) (length y) := by
  cases taken with
  | false => exact max_comm _ _
  | true => rfl

theorem Buffer.joinLaw : JoinLaw Buffer.lift Buffer.Picks where
  picks {ρ c taken} hc x y := by
    have hread := compute_readByte_join hc x y
    refine ⟨?_, hread, ?_, ?_⟩
    · rw [max_length_taken taken Buffer.length]
      exact length_join c x y
    · exact compute_readField_congr (by decide) hread
    · exact compute_readField_congr (by decide) hread
  self c x y h := by
    rw [show (SymbolicMachine.join c x y).lift = _ from lift_join c x y, ← h, Term.joinLists_self]

/-- The law is carried from a type to lists over it. -/
theorem JoinLaw.list {α φ : Type} [Join α] [Inhabited α] {formulas : α → φ}
    {Picks : Assignment → α → α → α → Prop} (h : JoinLaw formulas Picks) :
    JoinLaw (List.map formulas) (ListPicks Picks) where
  picks {ρ c taken} hc xs ys := by
    have hlen : (join c xs ys).length = max xs.length ys.length := length_joinLists c xs ys
    refine ⟨?_, fun i hi => ?_⟩
    · rw [max_length_taken taken List.length, hlen]
    · have hget : Padded.get default (join c xs ys) i = join c _ _ :=
        get_joinLists c (hlen ▸ hi)
      rw [hget]
      cases taken <;> exact h.picks hc _ _
  self c xs ys heq := by
    have hlen : xs.length = ys.length := by simpa using congrArg List.length heq
    have hjoin : (join c xs ys).length = max xs.length ys.length := length_joinLists c xs ys
    rw [← hlen, max_self] at hjoin
    apply Padded.ext (x := formulas default)
    · rw [List.length_map, List.length_map, hjoin]
    · intro i
      rw [Padded.get_map, Padded.get_map]
      by_cases hi : i < xs.length
      · have hget : Padded.get default (join c xs ys) i = join c _ _ :=
          get_joinLists c (lt_max_of_lt_left hi)
        have hplace := congrArg (Padded.get (formulas default) · i) heq
        rw [Padded.get_map, Padded.get_map] at hplace
        rw [hget, h.self c hplace]
      · rw [Padded.get_of_le _ (by omega : xs.length ≤ i), Padded.get_of_le]
        omega

/-- **A join is read as the side taken.** The law holds of terms, conditions, words, addresses and
memory in any form, and of lists of terms, words, addresses, memories and lists of terms. -/
theorem joins_pick_side_taken :
    (JoinLaw id (SameValue Term.compute) ∧
      JoinLaw id (SameValue Cond.compute) ∧
      JoinLaw Word.term (SameValue fun ρ w => w.term.compute ρ) ∧
      JoinLaw Address.term (SameValue fun ρ a => a.term.compute ρ) ∧
      JoinLaw Buffer.lift Buffer.Picks) ∧
    (JoinLaw (List.map id) (ListPicks (SameValue Term.compute)) ∧
      JoinLaw (List.map Word.term) (ListPicks (SameValue fun ρ w => w.term.compute ρ)) ∧
      JoinLaw (List.map Address.term) (ListPicks (SameValue fun ρ a => a.term.compute ρ)) ∧
      JoinLaw (List.map Buffer.lift) (ListPicks Buffer.Picks) ∧
      JoinLaw (List.map (List.map id)) (ListPicks (ListPicks (SameValue Term.compute)))) :=
  ⟨⟨Term.joinLaw, Cond.joinLaw, Word.joinLaw, Address.joinLaw, Buffer.joinLaw⟩,
    Term.joinLaw.list, Word.joinLaw.list, Address.joinLaw.list, Buffer.joinLaw.list,
    Term.joinLaw.list.list⟩

/-- Two lists of memories of different lengths, where the side that is not taken has no value, and
two sides with the same bytes in different forms, under a condition without a value. -/
theorem joins_pick_side_taken_of_undefined :
    let ρ : Assignment := fun name => if name = "x" then some 7 else none
    let c := Cond.named "x"
    let xs := [Buffer.known [1, 2], .symbolic [.var "x"]]
    let ys := [Buffer.symbolic [.var "y"]]
    c.compute ρ = some true ∧ ListPicks Buffer.Picks ρ (join c xs ys) xs ys ∧
      (Buffer.known [1]).lift = (Buffer.symbolic [.lit 1]).lift ∧
      (Cond.named "y").compute ρ = none ∧
      (join (.named "y") (Buffer.known [1]) (.symbolic [.lit 1])).lift = [.lit 1] := by
  intro ρ c xs ys
  obtain ⟨⟨-, -, -, -, hbuffer⟩, -, -, -, hlist, -⟩ := joins_pick_side_taken
  have hc : c.compute ρ = some true := Cond.compute_eq_eval c
  have hsame : (Buffer.known [1]).lift = (Buffer.symbolic [.lit 1]).lift := rfl
  exact ⟨hc, hlist.picks hc xs ys, hsame, Cond.compute_eq_eval _, hbuffer.self _ hsame⟩

end SymbolicMachine
