import SymbolicMachine.Formula.Operator

/-!
Formulas: integer terms and the conditions that choose between them. Equality is equality of trees.
Terms share subtrees freely, and a small object may be an enormous tree. So the comparison looks at
addresses before it looks inside, goes from left to right, and stops at the first difference.
-/

namespace SymbolicMachine

mutual
/-- A formula for an integer of any size. -/
inductive Term
  | lit (value : Int)
  | var (name : String)
  | popcount (arg : Term)
  | binary (op : BinaryOp) (left right : Term)
  | modular (op : ModularOp) (x y modulus : Term)
  | ite (cond : Cond) (thenTerm elseTerm : Term)

/-- A formula for a truth value. -/
inductive Cond
  | lit (value : Bool)
  | compare (op : Comparison) (left right : Term)
  | not (arg : Cond)
  | and (left right : Cond)
  | or (left right : Cond)
end

instance : Inhabited Term := ⟨.lit 0⟩

instance : Inhabited Cond := ⟨.lit false⟩

/-- An answer to the question whether two objects are equal. -/
abbrev Verdict {α : Type} (x y : α) : Type := { same : Bool // same = true ↔ x = y }

/-- Whether two objects are equal. An object equals itself without a look inside. -/
@[inline] def sameOr {α : Type} (x y : α) (inside : Unit → Verdict x y) : Bool :=
  withPtrEq x y (fun _ => (inside ()).1) (inside ()).2.2

@[simp] theorem sameOr_eq_true {α : Type} {x y : α} {inside : Unit → Verdict x y} :
    sameOr x y inside = true ↔ x = y := (inside ()).2

mutual
/-- Compares two terms. Verdicts are used and not instances of `Decidable`: instances are computed
ahead of the branch that asks for them, and the part behind a difference may be enormous. -/
def Term.verdict : (s t : Term) → Verdict s t
  | .lit x, .lit y => ⟨x == y, by simp⟩
  | .var x, .var y => ⟨x == y, by simp⟩
  | .popcount s, .popcount t => ⟨sameOr s t fun _ => s.verdict t, by simp⟩
  | .binary o s₁ s₂, .binary p t₁ t₂ =>
    ⟨o == p && (sameOr s₁ t₁ fun _ => s₁.verdict t₁) && (sameOr s₂ t₂ fun _ => s₂.verdict t₂),
      by simp [and_assoc]⟩
  | .modular o s₁ s₂ s₃, .modular p t₁ t₂ t₃ =>
    ⟨o == p && (sameOr s₁ t₁ fun _ => s₁.verdict t₁) && (sameOr s₂ t₂ fun _ => s₂.verdict t₂) &&
      (sameOr s₃ t₃ fun _ => s₃.verdict t₃), by simp [and_assoc]⟩
  | .ite c s₁ s₂, .ite d t₁ t₂ =>
    ⟨(sameOr c d fun _ => c.verdict d) && (sameOr s₁ t₁ fun _ => s₁.verdict t₁) &&
      (sameOr s₂ t₂ fun _ => s₂.verdict t₂), by simp [and_assoc]⟩
  | .lit _, .var _ | .lit _, .popcount _ | .lit _, .binary .. | .lit _, .modular ..
  | .lit _, .ite .. | .var _, .lit _ | .var _, .popcount _ | .var _, .binary ..
  | .var _, .modular .. | .var _, .ite .. | .popcount _, .lit _ | .popcount _, .var _
  | .popcount _, .binary .. | .popcount _, .modular .. | .popcount _, .ite ..
  | .binary .., .lit _ | .binary .., .var _ | .binary .., .popcount _
  | .binary .., .modular .. | .binary .., .ite .. | .modular .., .lit _ | .modular .., .var _
  | .modular .., .popcount _ | .modular .., .binary .. | .modular .., .ite ..
  | .ite .., .lit _ | .ite .., .var _ | .ite .., .popcount _ | .ite .., .binary ..
  | .ite .., .modular .. => ⟨false, by simp⟩

/-- Compares two conditions. -/
def Cond.verdict : (c d : Cond) → Verdict c d
  | .lit x, .lit y => ⟨x == y, by simp⟩
  | .compare o s₁ s₂, .compare p t₁ t₂ =>
    ⟨o == p && (sameOr s₁ t₁ fun _ => s₁.verdict t₁) && (sameOr s₂ t₂ fun _ => s₂.verdict t₂),
      by simp [and_assoc]⟩
  | .not c, .not d => ⟨sameOr c d fun _ => c.verdict d, by simp⟩
  | .and c₁ c₂, .and d₁ d₂ =>
    ⟨(sameOr c₁ d₁ fun _ => c₁.verdict d₁) && (sameOr c₂ d₂ fun _ => c₂.verdict d₂), by simp⟩
  | .or c₁ c₂, .or d₁ d₂ =>
    ⟨(sameOr c₁ d₁ fun _ => c₁.verdict d₁) && (sameOr c₂ d₂ fun _ => c₂.verdict d₂), by simp⟩
  | .lit _, .compare .. | .lit _, .not _ | .lit _, .and .. | .lit _, .or ..
  | .compare .., .lit _ | .compare .., .not _ | .compare .., .and .. | .compare .., .or ..
  | .not _, .lit _ | .not _, .compare .. | .not _, .and .. | .not _, .or ..
  | .and .., .lit _ | .and .., .compare .. | .and .., .not _ | .and .., .or ..
  | .or .., .lit _ | .or .., .compare .. | .or .., .not _ | .or .., .and .. => ⟨false, by simp⟩
end

instance : DecidableEq Term := fun s t =>
  decidable_of_iff (sameOr s t fun _ => s.verdict t) sameOr_eq_true

instance : DecidableEq Cond := fun c d =>
  decidable_of_iff (sameOr c d fun _ => c.verdict d) sameOr_eq_true

mutual
/-- The number of nodes of a term; a shared subtree counts once for every use. -/
def Term.size : Term → Nat
  | .lit _ | .var _ => 1
  | .popcount t => t.size + 1
  | .binary _ l r => l.size + r.size + 1
  | .modular _ x y m => x.size + y.size + m.size + 1
  | .ite c t e => c.size + t.size + e.size + 1

def Cond.size : Cond → Nat
  | .lit _ => 1
  | .compare _ l r => l.size + r.size + 1
  | .not c => c.size + 1
  | .and l r | .or l r => l.size + r.size + 1
end

abbrev Term.nat (n : Nat) : Term := .lit n

/-- The value of a term that is a literal. -/
def Term.lit? : Term → Option Int
  | .lit v => some v
  | _ => none

/-- The value of a condition that is a literal. -/
def Cond.lit? : Cond → Option Bool
  | .lit b => some b
  | _ => none

def Term.isLit (t : Term) : Bool := t.lit?.isSome

/-- The value of a literal that is not negative. -/
def Term.natLit? (t : Term) : Option Nat := t.lit?.bind Int.toNat?

end SymbolicMachine
