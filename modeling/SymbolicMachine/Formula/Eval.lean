import SymbolicMachine.Formula.Basic

/-!
The meaning of formulas. Operands are evaluated from left to right; of a choice only the branch
taken, and of a conjunction or disjunction the right side only if the left does not decide it.
-/

namespace SymbolicMachine

/-- Values for some of the variables. -/
abbrev Assignment := String → Option Int

mutual
/-- The value of a term, if every variable met has one and every operator stays in its domain. -/
def Term.eval (ρ : Assignment) : Term → Option Int
  | .lit v => some v
  | .var name => ρ name
  | .popcount t => do
    let x ← t.eval ρ
    Integer.bitCount? x
  | .binary op l r => do
    let x ← l.eval ρ
    let y ← r.eval ρ
    op.eval x y
  | .modular op l r m => do
    let x ← l.eval ρ
    let y ← r.eval ρ
    let z ← m.eval ρ
    op.eval x y z
  | .ite c t e => do
    let b ← c.eval ρ
    if b then t.eval ρ else e.eval ρ

/-- The truth value of a condition, under the same provisos. -/
def Cond.eval (ρ : Assignment) : Cond → Option Bool
  | .lit b => some b
  | .compare op l r => do
    let x ← l.eval ρ
    let y ← r.eval ρ
    return op.holds x y
  | .not c => do
    let b ← c.eval ρ
    return !b
  | .and c d => do
    let b ← c.eval ρ
    if b then d.eval ρ else return false
  | .or c d => do
    let b ← c.eval ρ
    if b then return true else d.eval ρ
end

end SymbolicMachine
