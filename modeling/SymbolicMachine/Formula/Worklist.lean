import SymbolicMachine.Formula.Eval

/-!
Evaluation and counting with explicit stacks. Formulas may be far deeper than a call stack, so the
tasks left to do and the values found so far are kept in lists. A run ends because every step makes
the weight of the tasks smaller (`weight_step`).
-/

namespace SymbolicMachine

namespace Worklist

/-- What is left to do: a formula to evaluate, or an operator whose operands are on the stacks. -/
inductive Task
  | term (t : Term)
  | cond (c : Cond)
  | popcount
  | binary (op : BinaryOp)
  | modular (op : ModularOp)
  | branch (thenTerm elseTerm : Term)
  | compare (op : Comparison)
  | not
  | andThen (right : Cond)
  | orElse (right : Cond)

/-- The tasks, next one first, and the values that wait for an operator, latest first. -/
structure State where
  tasks : List Task
  ints : List Int
  bools : List Bool

/-- Why a run stops before its tasks are done. -/
inductive Halt
  | unassigned (name : String)
  | outOfDomain
  | emptyStack
  deriving DecidableEq, Repr

/-- Puts the value of an operator on the integer stack. -/
def pushInt (s : State) : Option Int → Except Halt State
  | some v => .ok { s with ints := v :: s.ints }
  | none => .error .outOfDomain

/-- Does one task, which is no longer among the tasks of the state. -/
def step (ρ : Assignment) : Task → State → Except Halt State
  | .term (.lit v), s => .ok { s with ints := v :: s.ints }
  | .term (.var name), s =>
    match ρ name with
    | some v => .ok { s with ints := v :: s.ints }
    | none => .error (.unassigned name)
  | .term (.popcount t), s => .ok { s with tasks := .term t :: .popcount :: s.tasks }
  | .term (.binary op l r), s =>
    .ok { s with tasks := .term l :: .term r :: .binary op :: s.tasks }
  | .term (.modular op x y m), s =>
    .ok { s with tasks := .term x :: .term y :: .term m :: .modular op :: s.tasks }
  | .term (.ite c t e), s => .ok { s with tasks := .cond c :: .branch t e :: s.tasks }
  | .cond (.lit b), s => .ok { s with bools := b :: s.bools }
  | .cond (.compare op l r), s =>
    .ok { s with tasks := .term l :: .term r :: .compare op :: s.tasks }
  | .cond (.not c), s => .ok { s with tasks := .cond c :: .not :: s.tasks }
  | .cond (.and c d), s => .ok { s with tasks := .cond c :: .andThen d :: s.tasks }
  | .cond (.or c d), s => .ok { s with tasks := .cond c :: .orElse d :: s.tasks }
  | .popcount, ⟨tasks, x :: ints, bools⟩ =>
    pushInt ⟨tasks, ints, bools⟩ (Integer.bitCount? x)
  | .binary op, ⟨tasks, y :: x :: ints, bools⟩ => pushInt ⟨tasks, ints, bools⟩ (op.eval x y)
  | .modular op, ⟨tasks, z :: y :: x :: ints, bools⟩ =>
    pushInt ⟨tasks, ints, bools⟩ (op.eval x y z)
  | .branch t e, ⟨tasks, ints, b :: bools⟩ =>
    .ok ⟨.term (if b then t else e) :: tasks, ints, bools⟩
  | .compare op, ⟨tasks, y :: x :: ints, bools⟩ => .ok ⟨tasks, ints, op.holds x y :: bools⟩
  | .not, ⟨tasks, ints, b :: bools⟩ => .ok ⟨tasks, ints, (!b) :: bools⟩
  | .andThen d, ⟨tasks, ints, b :: bools⟩ =>
    .ok (if b then ⟨.cond d :: tasks, ints, bools⟩ else ⟨tasks, ints, false :: bools⟩)
  | .orElse d, ⟨tasks, ints, b :: bools⟩ =>
    .ok (if b then ⟨tasks, ints, true :: bools⟩ else ⟨.cond d :: tasks, ints, bools⟩)
  | _, _ => .error .emptyStack

/-- A bound on the steps that a task can lead to. -/
def Task.weight : Task → Nat
  | .term t => 2 * t.size
  | .cond c => 2 * c.size
  | .branch t e => 2 * (t.size + e.size) + 1
  | .andThen d | .orElse d => 2 * d.size + 1
  | _ => 1

/-- A bound on the steps that a list of tasks can lead to. -/
def weight : List Task → Nat
  | [] => 0
  | task :: tasks => task.weight + weight tasks

theorem pushInt_tasks {s s' : State} {v : Option Int} (h : pushInt s v = .ok s') :
    s'.tasks = s.tasks := by
  cases v <;> cases h
  rfl

theorem one_le_size (t : Term) : 1 ≤ t.size := by cases t <;> simp [Term.size]

/-- A step leaves less to do than the task it did. -/
theorem weight_step {ρ : Assignment} {task : Task} {s s' : State}
    (h : step ρ task s = .ok s') : weight s'.tasks < weight (task :: s.tasks) := by
  obtain ⟨tasks, ints, bools⟩ := s
  cases task with
  | term t =>
    cases t with
    | var name =>
      simp only [step] at h
      split at h <;> cases h
      simp [weight, Task.weight, Term.size]
    | _ =>
      cases h
      simp [weight, Task.weight, Term.size] <;> omega
  | cond c => cases c <;> cases h <;> simp [weight, Task.weight, Cond.size] <;> omega
  | popcount =>
    rcases ints with _ | ⟨x, ints⟩
    · cases h
    · simp [pushInt_tasks h, weight, Task.weight]
  | binary op =>
    rcases ints with _ | ⟨y, _ | ⟨x, ints⟩⟩
    · cases h
    · cases h
    · simp [pushInt_tasks h, weight, Task.weight]
  | modular op =>
    rcases ints with _ | ⟨z, _ | ⟨y, _ | ⟨x, ints⟩⟩⟩
    · cases h
    · cases h
    · cases h
    · simp [pushInt_tasks h, weight, Task.weight]
  | branch t e =>
    have ht := one_le_size t
    have he := one_le_size e
    rcases bools with _ | ⟨b, bools⟩ <;> cases h
    simp only [weight, Task.weight]
    cases b <;> simp only [if_true, if_false, Bool.false_eq_true] <;> omega
  | compare op =>
    rcases ints with _ | ⟨y, _ | ⟨x, ints⟩⟩ <;> cases h
    simp [weight, Task.weight]
  | not =>
    rcases bools with _ | ⟨b, bools⟩ <;> cases h
    simp [weight, Task.weight]
  | andThen d | orElse d =>
    rcases bools with _ | ⟨b, bools⟩ <;> cases h
    cases b <;> simp [weight, Task.weight]

/-- Does the tasks until none is left. -/
def run (ρ : Assignment) : State → Except Halt State
  | ⟨[], ints, bools⟩ => .ok ⟨[], ints, bools⟩
  | ⟨task :: tasks, ints, bools⟩ =>
    match _h : step ρ task ⟨tasks, ints, bools⟩ with
    | .error e => .error e
    | .ok s => run ρ s
termination_by s => weight s.tasks
decreasing_by exact weight_step _h

inductive Node
  | term (t : Term)
  | cond (c : Cond)

/-- The nodes right below a node. -/
def Node.children : Node → List Node
  | .term (.lit _) | .term (.var _) | .cond (.lit _) => []
  | .term (.popcount t) => [.term t]
  | .term (.binary _ l r) | .cond (.compare _ l r) => [.term l, .term r]
  | .term (.modular _ x y m) => [.term x, .term y, .term m]
  | .term (.ite c t e) => [.cond c, .term t, .term e]
  | .cond (.not c) => [.cond c]
  | .cond (.and c d) | .cond (.or c d) => [.cond c, .cond d]

def Node.size : Node → Nat
  | .term t => t.size
  | .cond c => c.size

/-- The size of the formulas under several nodes. -/
def totalSize : List Node → Nat
  | [] => 0
  | n :: nodes => n.size + totalSize nodes

theorem totalSize_append (l r : List Node) : totalSize (l ++ r) = totalSize l + totalSize r := by
  induction l with
  | nil => simp [totalSize]
  | cons n l ih => rw [List.cons_append, totalSize, totalSize, ih, Nat.add_assoc]

/-- A node is one more than what lies below it. -/
theorem Node.size_eq (n : Node) : n.size = totalSize n.children + 1 := by
  rcases n with t | c
  · cases t <;> simp [children, totalSize, size, Term.size, Nat.add_assoc]
  · cases c <;> simp [children, totalSize, size, Cond.size]

/-- Adds to `count` the nodes under those of a list. -/
def countNodes (count : Nat) : List Node → Nat
  | [] => count
  | n :: rest => countNodes (count + 1) (n.children ++ rest)
termination_by nodes => totalSize nodes
decreasing_by
  rw [totalSize_append, totalSize, n.size_eq]
  omega

theorem countNodes_eq (count : Nat) (nodes : List Node) :
    countNodes count nodes = count + totalSize nodes := by
  fun_induction countNodes count nodes with
  | case1 => rfl
  | case2 count n rest ih =>
    rw [ih, totalSize_append, totalSize, n.size_eq]
    omega

end Worklist

open Worklist

/-- The value of a term, found with explicit stacks. -/
def Term.compute (ρ : Assignment) (t : Term) : Option Int :=
  match run ρ ⟨[.term t], [], []⟩ with
  | .ok s => s.ints.head?
  | .error _ => none

def Cond.compute (ρ : Assignment) (c : Cond) : Option Bool :=
  match run ρ ⟨[.cond c], [], []⟩ with
  | .ok s => s.bools.head?
  | .error _ => none

/-- The size of a term, counted with an explicit stack. -/
def Term.nodeCount (t : Term) : Nat := countNodes 0 [.term t]

def Cond.nodeCount (c : Cond) : Nat := countNodes 0 [.cond c]

end SymbolicMachine
