import Mathlib
import SymbolicMachine.Formula.Worklist

/-!
# The stack evaluator computes the meaning of formulas

`Runs ρ done s r`: the loop, started in `s`, does the tasks `done` and ends with the outcome `r`. A
run whose first task is a formula takes up the formulas of its `trace`, and then either the value of
the formula is on the stack and the run goes on with the other tasks, or the formula has no value
and the run has stopped, though never for want of a value on a stack (`finds_term`, `finds_cond`).
The tasks behind the formula and the values below it are arbitrary, which is what the induction over
the formula needs. Hence `Term.compute_eq_eval` and `Cond.compute_eq_eval`.
-/

namespace SymbolicMachine

open Worklist

/-! ## The order of evaluation -/

mutual
/-- The formulas whose values are asked for on the way to the value of a term, itself first.
Operands are asked for from left to right as long as there are values, and of a choice, a
conjunction or a disjunction only what the value of the part before leaves open. -/
def Term.trace (ρ : Assignment) : Term → List Node
  | .lit v => [.term (.lit v)]
  | .var name => [.term (.var name)]
  | .popcount t => .term (.popcount t) :: t.trace ρ
  | .binary op l r =>
    .term (.binary op l r) :: (l.trace ρ ++ (l.eval ρ).elim [] fun _ => r.trace ρ)
  | .modular op l r m =>
    .term (.modular op l r m) ::
      (l.trace ρ ++ (l.eval ρ).elim [] fun _ =>
        r.trace ρ ++ (r.eval ρ).elim [] fun _ => m.trace ρ)
  | .ite c t e =>
    .term (.ite c t e) ::
      (c.trace ρ ++ (c.eval ρ).elim [] fun b => if b then t.trace ρ else e.trace ρ)

/-- The formulas whose values are asked for on the way to the value of a condition. -/
def Cond.trace (ρ : Assignment) : Cond → List Node
  | .lit b => [.cond (.lit b)]
  | .compare op l r =>
    .cond (.compare op l r) :: (l.trace ρ ++ (l.eval ρ).elim [] fun _ => r.trace ρ)
  | .not c => .cond (.not c) :: c.trace ρ
  | .and c d =>
    .cond (.and c d) :: (c.trace ρ ++ (c.eval ρ).elim [] fun b => if b then d.trace ρ else [])
  | .or c d =>
    .cond (.or c d) :: (c.trace ρ ++ (c.eval ρ).elim [] fun b => if b then [] else d.trace ρ)
end

namespace Worklist

variable {ρ : Assignment} {task : Task} {tasks : List Task} {ints : List Int} {bools : List Bool}

/-! ## Runs -/

/-- The loop, started in a state, does some tasks and ends with an outcome. -/
inductive Runs (ρ : Assignment) : List Task → State → Except Halt State → Prop
  | done {ints : List Int} {bools : List Bool} :
    Runs ρ [] ⟨[], ints, bools⟩ (.ok ⟨[], ints, bools⟩)
  | halt {task : Task} {tasks : List Task} {ints : List Int} {bools : List Bool} {e : Halt}
    (h : step ρ task ⟨tasks, ints, bools⟩ = .error e) :
    Runs ρ [task] ⟨task :: tasks, ints, bools⟩ (.error e)
  | step {task : Task} {tasks done : List Task} {ints : List Int} {bools : List Bool} {s : State}
    {r : Except Halt State} (h : step ρ task ⟨tasks, ints, bools⟩ = .ok s) (H : Runs ρ done s r) :
    Runs ρ (task :: done) ⟨task :: tasks, ints, bools⟩ r

theorem Runs.run_eq {done : List Task} {s : State} {r : Except Halt State} (H : Runs ρ done s r) :
    run ρ s = r := by
  induction H with
  | done => rw [run]
  | halt h =>
    rw [run]
    split
    · rename_i h'
      rw [h] at h'
      cases h'
      rfl
    · rename_i h'
      rw [h] at h'
      cases h'
  | step h _ ih =>
    rw [run]
    split
    · rename_i h'
      rw [h] at h'
      cases h'
    · rename_i h'
      rw [h] at h'
      cases h'
      exact ih

/-- A run does no more tasks than what it starts with weighs. -/
theorem Runs.length_le {done : List Task} {s : State} {r : Except Halt State}
    (H : Runs ρ done s r) : done.length ≤ weight s.tasks := by
  induction H with
  | done => exact Nat.zero_le _
  | @halt task =>
    have htask : 1 ≤ task.weight := by
      cases task with
      | term t =>
        have ht := one_le_size t
        rw [Task.weight]
        omega
      | cond c => cases c <;> simp [Task.weight, Cond.size] <;> omega
      | _ => simp [Task.weight]
    simp only [List.length_singleton, weight]
    omega
  | step h _ ih => exact ih.trans_lt (weight_step h)

/-- The formula that a task is to evaluate. -/
def Task.node? : Task → Option Node
  | .term t => some (.term t)
  | .cond c => some (.cond c)
  | _ => none

/-- A run from `s` takes up the formulas `nodes`; then it goes on from `next v` if `value` is some
`v`, and has stopped if there is no value. -/
def Finds {α : Type} (ρ : Assignment) (s : State) (nodes : List Node) (value : Option α)
    (next : α → State) : Prop :=
  ∃ done : List Task, done.filterMap Task.node? = nodes ∧
    match value with
    | some v => ∀ {rest r}, Runs ρ rest (next v) r → Runs ρ (done ++ rest) s r
    | none => ∃ e, e ≠ .emptyStack ∧ Runs ρ done s (.error e)

namespace Finds

variable {α β : Type} {s : State} {nodes : List Node} {value : Option α} {next : α → State}

/-- The tasks of a state found in one step. -/
theorem pure {v : α} (h : Worklist.step ρ task ⟨tasks, ints, bools⟩ = .ok (next v)) :
    Finds ρ ⟨task :: tasks, ints, bools⟩ task.node?.toList (some v) next :=
  ⟨[task], by cases task <;> rfl, fun H => .step h H⟩

/-- One step, then the rest of the run. -/
theorem step (h : Worklist.step ρ task ⟨tasks, ints, bools⟩ = .ok s)
    (H : Finds ρ s nodes value next) :
    Finds ρ ⟨task :: tasks, ints, bools⟩ (task.node?.toList ++ nodes) value next := by
  obtain ⟨done, rfl, H⟩ := H
  refine ⟨task :: done, by cases task <;> rfl, ?_⟩
  cases value with
  | some v => exact fun H' => .step h (H H')
  | none =>
    obtain ⟨e, he, H⟩ := H
    exact ⟨e, he, .step h H⟩

theorem bind {f : α → Option β} {nodes' : α → List Node} {next' : β → State}
    (H : Finds ρ s nodes value next) (H' : ∀ v, Finds ρ (next v) (nodes' v) (f v) next') :
    Finds ρ s (nodes ++ value.elim [] nodes') (value >>= f) next' := by
  obtain ⟨done, rfl, H⟩ := H
  cases value with
  | none => exact ⟨done, by simp, H⟩
  | some v =>
    obtain ⟨done', hnodes, H'⟩ := H' v
    refine ⟨done ++ done', by simp [hnodes], ?_⟩
    change match f v with | some _ => _ | none => _
    cases hv : f v with
    | some w =>
      intro rest r hr
      rw [hv] at H'
      rw [List.append_assoc]
      exact H (H' hr)
    | none =>
      rw [hv] at H'
      obtain ⟨e, he, H'⟩ := H'
      exact ⟨e, he, H H'⟩

/-- The operands, then the operator. -/
theorem operator {f : α → Option β} {next' : β → State} (H : Finds ρ s nodes value next)
    (H' : ∀ v, Finds ρ (next v) [] (f v) next') : Finds ρ s nodes (value >>= f) next' := by
  have h := H.bind H'
  cases value with
  | some v => simpa using h
  | none => simpa using h

/-- An operator whose operands are on the stack. -/
theorem push {v : Option Int} {ints' : List Int}
    (h : Worklist.step ρ task ⟨tasks, ints', bools⟩ = pushInt ⟨tasks, ints, bools⟩ v) :
    Finds ρ ⟨task :: tasks, ints', bools⟩ task.node?.toList v
      fun x => ⟨tasks, x :: ints, bools⟩ := by
  cases v with
  | some x => exact .pure h
  | none => exact ⟨[task], by cases task <;> rfl, .outOfDomain, by decide, .halt h⟩

end Finds

mutual
theorem finds_term (t : Term) (tasks : List Task) (ints : List Int) (bools : List Bool) :
    Finds ρ ⟨.term t :: tasks, ints, bools⟩ (t.trace ρ) (t.eval ρ)
      fun v => ⟨tasks, v :: ints, bools⟩ := by
  cases t with
  | lit v => exact .pure rfl
  | var name =>
    rw [Term.eval]
    cases h : ρ name with
    | some v => exact .pure (by simp only [step, h])
    | none =>
      exact ⟨[.term (.var name)], rfl, .unassigned name, by simp, .halt (by simp only [step, h])⟩
  | popcount t =>
    exact .step rfl <| (finds_term t _ ints bools).operator fun _ => .push rfl
  | binary op l r =>
    exact .step rfl <| (finds_term l _ ints bools).bind fun x =>
      (finds_term r _ (x :: ints) bools).operator fun _ => .push rfl
  | modular op x y m =>
    exact .step rfl <| (finds_term x _ ints bools).bind fun v =>
      (finds_term y _ (v :: ints) bools).bind fun w =>
        (finds_term m _ (w :: v :: ints) bools).operator fun _ => .push rfl
  | ite c t e =>
    refine .step rfl <| (finds_cond c _ ints bools).bind fun b => ?_
    -- only the branch taken becomes a task
    cases b with
    | true => exact .step rfl (finds_term t tasks ints bools)
    | false => exact .step rfl (finds_term e tasks ints bools)

theorem finds_cond (c : Cond) (tasks : List Task) (ints : List Int) (bools : List Bool) :
    Finds ρ ⟨.cond c :: tasks, ints, bools⟩ (c.trace ρ) (c.eval ρ)
      fun b => ⟨tasks, ints, b :: bools⟩ := by
  cases c with
  | lit b => exact .pure rfl
  | compare op l r =>
    exact .step rfl <| (finds_term l _ ints bools).bind fun x =>
      (finds_term r _ (x :: ints) bools).operator fun _ => .pure rfl
  | not c => exact .step rfl <| (finds_cond c _ ints bools).operator fun _ => .pure rfl
  | and c d =>
    refine .step rfl <| (finds_cond c _ ints bools).bind fun b => ?_
    cases b with
    | true => exact .step rfl (finds_cond d tasks ints bools)
    | false => exact .pure rfl
  | or c d =>
    refine .step rfl <| (finds_cond c _ ints bools).bind fun b => ?_
    cases b with
    | true => exact .pure rfl
    | false => exact .step rfl (finds_cond d tasks ints bools)
end

end Worklist

variable {ρ : Assignment}

/-- The stack evaluator gives a term its value, and none to a term that has none. -/
theorem Term.compute_eq_eval (t : Term) : t.compute ρ = t.eval ρ := by
  obtain ⟨done, -, H⟩ := finds_term (ρ := ρ) t [] [] []
  cases hv : t.eval ρ with
  | some v =>
    rw [hv] at H
    rw [compute, (H .done).run_eq]
    rfl
  | none =>
    rw [hv] at H
    obtain ⟨e, -, H⟩ := H
    rw [compute, H.run_eq]

theorem Cond.compute_eq_eval (c : Cond) : c.compute ρ = c.eval ρ := by
  obtain ⟨done, -, H⟩ := finds_cond (ρ := ρ) c [] [] []
  cases hv : c.eval ρ with
  | some b =>
    rw [hv] at H
    rw [compute, (H .done).run_eq]
    rfl
  | none =>
    rw [hv] at H
    obtain ⟨e, -, H⟩ := H
    rw [compute, H.run_eq]

end SymbolicMachine
