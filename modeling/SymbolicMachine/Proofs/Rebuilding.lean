import Mathlib
import SymbolicMachine.Proofs.Evaluation
import SymbolicMachine.Proofs.Folding
import SymbolicMachine.Proofs.Size

/-!
# Folding a whole formula

A tree that has a value folds to a formula with that value, and to the literal itself if no variable
had one (`Term.means_rebuild`, `Cond.means_rebuild`): both are the one induction over the tree that
follows evaluation, with `Term.Means` as its invariant. Parts that evaluation skips may fold to
anything. Main results: `rebuild_keeps_values` and `rebuild_eq_lit`.
-/

namespace SymbolicMachine

variable {ρ : Assignment} {known : Prop}

/-! ## Values -/

mutual
/-- What a term with a value folds to means that value; it is a literal if no variable has a
value. -/
theorem Term.means_rebuild {t : Term} {v : Int} (h : t.eval ρ = some v)
    (hk : known → ∀ name, ρ name = none) : t.rebuild.Means ρ known v := by
  cases t with
  | lit x =>
    cases h
    exact .ofLit v
  | var name =>
    refine ⟨h, fun k => ?_⟩
    rw [Term.eval, hk k name] at h
    cases h
  | popcount t =>
    rw [Term.eval] at h
    obtain ⟨x, ht, hv⟩ := Option.bind_eq_some_iff.mp h
    exact (Term.means_rebuild ht hk).popcount hv
  | binary op l r =>
    rw [Term.eval] at h
    obtain ⟨x, hl, h⟩ := Option.bind_eq_some_iff.mp h
    obtain ⟨y, hr, hv⟩ := Option.bind_eq_some_iff.mp h
    exact (Term.means_rebuild hl hk).binary (Term.means_rebuild hr hk) hv
  | modular op l r m =>
    rw [Term.eval] at h
    obtain ⟨x, hl, h⟩ := Option.bind_eq_some_iff.mp h
    obtain ⟨y, hr, h⟩ := Option.bind_eq_some_iff.mp h
    obtain ⟨z, hm, hv⟩ := Option.bind_eq_some_iff.mp h
    exact (Term.means_rebuild hl hk).modular (Term.means_rebuild hr hk) (Term.means_rebuild hm hk)
      hv
  | ite c t e =>
    rw [Term.eval] at h
    obtain ⟨b, hc, hv⟩ := Option.bind_eq_some_iff.mp h
    -- the induction hypothesis is there for the branch taken only
    refine .ite (Cond.means_rebuild hc hk) (fun hb => ?_) fun hb => ?_
    · rw [hb] at hv
      exact Term.means_rebuild hv hk
    · rw [hb] at hv
      exact Term.means_rebuild hv hk

theorem Cond.means_rebuild {c : Cond} {b : Bool} (h : c.eval ρ = some b)
    (hk : known → ∀ name, ρ name = none) : c.rebuild.Means ρ known b := by
  cases c with
  | lit x =>
    cases h
    exact ⟨rfl, fun _ => rfl⟩
  | compare op l r =>
    rw [Cond.eval] at h
    obtain ⟨x, hl, h⟩ := Option.bind_eq_some_iff.mp h
    obtain ⟨y, hr, hv⟩ := Option.bind_eq_some_iff.mp h
    cases hv
    exact .compare (Term.means_rebuild hl hk) (Term.means_rebuild hr hk)
  | not c =>
    rw [Cond.eval] at h
    obtain ⟨a, hc, hv⟩ := Option.bind_eq_some_iff.mp h
    cases hv
    exact (Cond.means_rebuild hc hk).not
  | and c d =>
    rw [Cond.eval] at h
    obtain ⟨a, hc, hv⟩ := Option.bind_eq_some_iff.mp h
    cases a with
    | true => exact (Cond.means_rebuild hc hk).and fun _ => Cond.means_rebuild hv hk
    | false =>
      cases hv
      exact (Cond.means_rebuild hc hk).and (b := false) fun ha => nomatch ha
  | or c d =>
    rw [Cond.eval] at h
    obtain ⟨a, hc, hv⟩ := Option.bind_eq_some_iff.mp h
    cases a with
    | true =>
      cases hv
      exact (Cond.means_rebuild hc hk).or (b := true) fun ha => nomatch ha
    | false => exact (Cond.means_rebuild hc hk).or fun _ => Cond.means_rebuild hv hk
end

/-! ## Sizes -/

mutual
theorem Term.size_rebuild_le (t : Term) : t.rebuild.size ≤ t.size := by
  cases t with
  | lit v => exact le_rfl
  | var name => exact le_rfl
  | popcount t =>
    have ht := t.size_rebuild_le
    refine (Term.size_mkPopcount_le _).trans ?_
    rw [Term.size, Term.size]
    omega
  | binary op l r =>
    have hl := l.size_rebuild_le
    have hr := r.size_rebuild_le
    refine (Term.size_mkBinary_le op _ _).trans ?_
    rw [Term.size, Term.size]
    omega
  | modular op x y m =>
    have hx := x.size_rebuild_le
    have hy := y.size_rebuild_le
    have hm := m.size_rebuild_le
    refine (Term.size_mkModular_le op _ _ _).trans ?_
    rw [Term.size, Term.size]
    omega
  | ite c t e =>
    have hc := c.size_rebuild_le
    have ht := t.size_rebuild_le
    have he := e.size_rebuild_le
    refine (Term.size_mkIte_le _ _ _).trans ?_
    rw [Term.size, Term.size]
    omega

theorem Cond.size_rebuild_le (c : Cond) : c.rebuild.size ≤ c.size := by
  cases c with
  | lit b => exact le_rfl
  | compare op l r =>
    have hl := l.size_rebuild_le
    have hr := r.size_rebuild_le
    refine (Cond.size_mkCompare_le op _ _).trans ?_
    rw [Cond.size, Cond.size]
    omega
  | not c =>
    have hc := c.size_rebuild_le
    refine (Cond.size_mkNot_le _).trans ?_
    rw [Cond.size, Cond.size]
    omega
  | and c d =>
    have hc := c.size_rebuild_le
    have hd := d.size_rebuild_le
    refine (Cond.size_mkAnd_le _ _).trans ?_
    rw [Cond.size, Cond.size]
    omega
  | or c d =>
    have hc := c.size_rebuild_le
    have hd := d.size_rebuild_le
    refine (Cond.size_mkOr_le _ _).trans ?_
    rw [Cond.size, Cond.size]
    omega
end

/-! ## Main results -/

/-- **Folding keeps every value and adds no node.** Under every assignment a formula of either sort
that has a value folds to one with the same value. A formula without a value may fold to one that
has a value. The folded formula has at most as many nodes. -/
theorem rebuild_keeps_values (ρ : Assignment) :
    (∀ (t : Term) (v : Int), t.compute ρ = some v → t.rebuild.compute ρ = some v) ∧
    (∀ (c : Cond) (b : Bool), c.compute ρ = some b → c.rebuild.compute ρ = some b) ∧
    (∃ t : Term, t.compute ρ = none ∧ t.rebuild.compute ρ = some 0) ∧
    (∃ c : Cond, c.compute ρ = none ∧ c.rebuild.compute ρ = some false) ∧
    (∀ t : Term, t.rebuild.nodeCount ≤ t.nodeCount) ∧
    (∀ c : Cond, c.rebuild.nodeCount ≤ c.nodeCount) := by
  simp only [Term.compute_eq_eval, Cond.compute_eq_eval, Term.nodeCount_eq_size,
    Cond.nodeCount_eq_size]
  -- a negative integer has no count of ones
  refine ⟨fun t v h => ?_, fun c b h => ?_,
    ⟨.binary .mul (.popcount (.lit (-1))) (.lit 0), rfl, rfl⟩,
    ⟨.and (.compare .eq (.popcount (.lit (-1))) (.lit 0)) (.lit false), rfl, rfl⟩,
    Term.size_rebuild_le, Cond.size_rebuild_le⟩
  · exact (Term.means_rebuild h (False.elim : False → _)).eval
  · exact (Cond.means_rebuild h (False.elim : False → _)).eval

/-- A residue of an unknown modulo a negative number, taken twice. -/
theorem rebuild_keeps_values_below_zero :
    let t : Term := .binary .mod (.binary .mod (.var "x") (.lit (-7))) (.lit (-7))
    let ρ : Assignment := fun _ => some 3
    t.compute ρ = some (-4) ∧ t.rebuild.compute ρ = some (-4) ∧
      t.rebuild.nodeCount ≤ t.nodeCount := by
  intro t ρ
  have ht : t.compute ρ = some (-4) := Term.compute_eq_eval t
  obtain ⟨hvalue, -, -, -, hsize, -⟩ := rebuild_keeps_values ρ
  exact ⟨ht, hvalue t (-4) ht, hsize t⟩

/-- **Folding of constants is complete.** A formula of either sort that has a value although no
variable has one folds to the literal of that value. Its variables and the operators outside their
domains can only lie in branches and right sides that evaluation skips, and these may fold to
anything. -/
theorem rebuild_eq_lit :
    (∀ (t : Term) (v : Int), t.compute (fun _ => none) = some v → t.rebuild = .lit v) ∧
    (∀ (c : Cond) (b : Bool), c.compute (fun _ => none) = some b → c.rebuild = .lit b) := by
  simp only [Term.compute_eq_eval, Cond.compute_eq_eval]
  refine ⟨fun t v h => ?_, fun c b h => ?_⟩
  · exact (Term.means_rebuild h fun _ : True => fun _ => rfl).lit trivial
  · exact (Cond.means_rebuild h fun _ : True => fun _ => rfl).lit trivial

/-- A shift that is too long to be written out, behind a condition that skips a count of the ones of
a negative integer. -/
theorem rebuild_eq_lit_past_undefined :
    let skipped : Cond := .compare .eq (.popcount (.lit (-1))) (.lit 0)
    let t : Term := .ite (.and (.lit false) skipped) (.binary .shl (.lit 1) (.lit 70000))
      (.binary .div (.lit (-7)) (.lit 2))
    t.compute (fun _ => none) = some (-3) ∧ t.rebuild = .lit (-3) := by
  intro skipped t
  have ht : t.compute (fun _ => none) = some (-3) := Term.compute_eq_eval t
  exact ⟨ht, rebuild_eq_lit.1 t (-3) ht⟩

end SymbolicMachine
