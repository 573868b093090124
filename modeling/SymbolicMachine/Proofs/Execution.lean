import Mathlib
import SymbolicMachine.Proofs.Evaluation

/-!
# What a run of the stack evaluator does

`Node.Stuck ρ n`: the formula `n` is an unassigned variable, or an operator whose operands have
values outside its domain. A formula has no value if and only if one of the formulas of its trace is
stuck (`Term.eval_eq_none_iff`, `Cond.eval_eq_none_iff`).

Main result: `run_exact`. A run on one formula ends within twice as many steps as the formula has
nodes, and takes up the formulas of the trace, in order. It leaves the value of the formula and
nothing else, or one of the formulas it has taken up is stuck.
-/

namespace SymbolicMachine
namespace Worklist

variable {ρ : Assignment}

/-! ## Formulas without a value -/

/-- A formula has no value although its operands have values. -/
def Node.Stuck (ρ : Assignment) : Node → Prop
  | .term (.var name) => ρ name = none
  | .term (.popcount t) => ∃ x, t.eval ρ = some x ∧ x < 0
  | .term (.binary op l r) =>
    ∃ x y, l.eval ρ = some x ∧ r.eval ρ = some y ∧ op.eval x y = none
  | .term (.modular op l r m) =>
    ∃ x y z, l.eval ρ = some x ∧ r.eval ρ = some y ∧ m.eval ρ = some z ∧ op.eval x y z = none
  | _ => False

def Blocked (ρ : Assignment) (nodes : List Node) : Prop := ∃ n ∈ nodes, n.Stuck ρ

theorem blocked_nil : ¬ Blocked ρ [] := by simp [Blocked]

theorem blocked_cons {n : Node} {nodes : List Node} :
    Blocked ρ (n :: nodes) ↔ n.Stuck ρ ∨ Blocked ρ nodes := by simp [Blocked]

theorem blocked_append {nodes nodes' : List Node} :
    Blocked ρ (nodes ++ nodes') ↔ Blocked ρ nodes ∨ Blocked ρ nodes' := by
  simp [Blocked, or_and_right, exists_or]

end Worklist

open Worklist

variable {ρ : Assignment}

theorem Integer.bitCount?_eq_none_iff {x : Int} : Integer.bitCount? x = none ↔ x < 0 := by
  rw [Integer.bitCount?, Option.map_eq_none_iff]
  cases x <;> simp [Int.toNat?]

mutual
/-- A term has no value if and only if the evaluation comes to a formula that is stuck. -/
theorem Term.eval_eq_none_iff (t : Term) : t.eval ρ = none ↔ Blocked ρ (t.trace ρ) := by
  cases t with
  | lit v => simp [Term.eval, Term.trace, Node.Stuck, blocked_nil, blocked_cons]
  | var name => simp [Term.eval, Term.trace, Node.Stuck, blocked_nil, blocked_cons]
  | popcount t =>
    rw [Term.eval, Term.trace, blocked_cons, ← t.eval_eq_none_iff]
    cases ht : t.eval ρ <;> simp [Node.Stuck, ht, Integer.bitCount?_eq_none_iff]
  | binary op l r =>
    rw [Term.eval, Term.trace, blocked_cons, blocked_append, ← l.eval_eq_none_iff]
    cases hl : l.eval ρ with
    | none => simp
    | some x =>
      rw [Option.elim, ← r.eval_eq_none_iff]
      cases hr : r.eval ρ <;> simp [Node.Stuck, hl, hr]
  | modular op l r m =>
    rw [Term.eval, Term.trace, blocked_cons, blocked_append, ← l.eval_eq_none_iff]
    cases hl : l.eval ρ with
    | none => simp
    | some x =>
      rw [Option.elim, blocked_append, ← r.eval_eq_none_iff]
      cases hr : r.eval ρ with
      | none => simp
      | some y =>
        rw [Option.elim, ← m.eval_eq_none_iff]
        cases hm : m.eval ρ <;> simp [Node.Stuck, hl, hr, hm]
  | ite c t e =>
    rw [Term.eval, Term.trace, blocked_cons, blocked_append, ← c.eval_eq_none_iff]
    cases hc : c.eval ρ with
    | none => simp
    | some b =>
      have ht := t.eval_eq_none_iff
      have he := e.eval_eq_none_iff
      cases b <;> simp [Node.Stuck, ht, he]

/-- A condition has no value if and only if the evaluation comes to a formula that is stuck. -/
theorem Cond.eval_eq_none_iff (c : Cond) : c.eval ρ = none ↔ Blocked ρ (c.trace ρ) := by
  cases c with
  | lit b => simp [Cond.eval, Cond.trace, Node.Stuck, blocked_nil, blocked_cons]
  | compare op l r =>
    rw [Cond.eval, Cond.trace, blocked_cons, blocked_append, ← l.eval_eq_none_iff]
    cases hl : l.eval ρ with
    | none => simp
    | some x =>
      rw [Option.elim, ← r.eval_eq_none_iff]
      cases hr : r.eval ρ <;> simp [Node.Stuck]
  | not c =>
    rw [Cond.eval, Cond.trace, blocked_cons, ← c.eval_eq_none_iff]
    cases hc : c.eval ρ <;> simp [Node.Stuck]
  | and c d | or c d =>
    rw [Cond.eval, Cond.trace, blocked_cons, blocked_append, ← c.eval_eq_none_iff]
    cases hc : c.eval ρ with
    | none => simp
    | some b =>
      have hd := d.eval_eq_none_iff
      cases b <;> simp [Node.Stuck, blocked_nil, hd]
end

namespace Worklist

/-! ## Runs on one formula -/

/-- A state with nothing to do but to evaluate a formula. -/
def Node.start : Node → State
  | .term t => ⟨[.term t], [], []⟩
  | .cond c => ⟨[.cond c], [], []⟩

def Node.trace (ρ : Assignment) : Node → List Node
  | .term t => t.trace ρ
  | .cond c => c.trace ρ

/-- What is to be left: the value of the formula on the stack of its sort, and nothing else. -/
def Node.answer (ρ : Assignment) : Node → Option State
  | .term t => (t.eval ρ).map fun v => ⟨[], [v], []⟩
  | .cond c => (c.eval ρ).map fun b => ⟨[], [], [b]⟩

theorem Node.weight_start (n : Node) : weight n.start.tasks = 2 * n.size := by
  cases n <;> rfl

/-- The run from a state that leads to the value of a formula and has nothing to do behind it. -/
theorem Finds.exists_runs {α : Type} {s : State} {nodes : List Node} {value : Option α}
    {next : α → State} (H : Finds ρ s nodes value next)
    (hnext : ∀ v, Runs ρ [] (next v) (.ok (next v))) :
    ∃ done r, Runs ρ done s r ∧ done.filterMap Task.node? = nodes ∧ r ≠ .error .emptyStack ∧
      ∀ s', r = .ok s' ↔ value.map next = some s' := by
  obtain ⟨done, hnodes, H⟩ := H
  cases value with
  | some v =>
    refine ⟨done, .ok (next v), ?_, hnodes, by simp, by simp⟩
    rw [← List.append_nil done]
    exact H (hnext v)
  | none =>
    obtain ⟨e, he, H⟩ := H
    exact ⟨done, .error e, H, hnodes, by simpa using he, by simp⟩

theorem Node.exists_runs (n : Node) :
    ∃ done r, Runs ρ done n.start r ∧ done.filterMap Task.node? = n.trace ρ ∧
      r ≠ .error .emptyStack ∧ ∀ s, r = .ok s ↔ n.answer ρ = some s := by
  cases n with
  | term t => exact (finds_term t [] [] []).exists_runs fun _ => .done
  | cond c => exact (finds_cond c [] [] []).exists_runs fun _ => .done

/-- **The loop is the recursive semantics.** A run on a formula ends, after at most twice as many
tasks as the formula has nodes; the formulas among the tasks are the trace of the formula, in order.
It never misses a value on a stack, and when it succeeds it leaves the value of the formula as the
only value, on the stack of its sort. So the evaluators return the value of the formula, and none if
and only if one of the formulas of the trace is an unassigned variable or an operator outside its
domain. -/
theorem run_exact (ρ : Assignment) :
    (∀ n : Node,
      (∃ done : List Task, Runs ρ done n.start (run ρ n.start) ∧ done.length ≤ 2 * n.size ∧
        done.filterMap Task.node? = n.trace ρ) ∧
      run ρ n.start ≠ .error .emptyStack ∧
      ∀ s, run ρ n.start = .ok s ↔ n.answer ρ = some s) ∧
    (∀ t : Term, t.compute ρ = t.eval ρ ∧
      (t.compute ρ = none ↔ ∃ n ∈ t.trace ρ, n.Stuck ρ)) ∧
    (∀ c : Cond, c.compute ρ = c.eval ρ ∧
      (c.compute ρ = none ↔ ∃ n ∈ c.trace ρ, n.Stuck ρ)) := by
  refine ⟨fun n => ?_, fun t => ?_, fun c => ?_⟩
  · obtain ⟨done, r, H, hnodes, hstack, hvalue⟩ := n.exists_runs (ρ := ρ)
    cases H.run_eq
    exact ⟨⟨done, H, n.weight_start ▸ H.length_le, hnodes⟩, hstack, hvalue⟩
  · exact ⟨t.compute_eq_eval, t.compute_eq_eval ▸ t.eval_eq_none_iff⟩
  · exact ⟨c.compute_eq_eval, c.compute_eq_eval ▸ c.eval_eq_none_iff⟩

end Worklist
end SymbolicMachine
