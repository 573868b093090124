/-!
Trees of JSON, as far as values are stored in them. A variant of a type is an object with the name
of the variant as its only key, or that name alone if there is nothing to store under it.
-/

namespace SymbolicMachine

/-- A tree of JSON. -/
inductive Json
  | null
  | bool (value : Bool)
  | int (value : Int)
  /-- A number that is not written as an integer; no value is stored as one. -/
  | real
  | str (value : String)
  | arr (items : List Json)
  | obj (fields : List (String × Json))

namespace Json

instance : Inhabited Json := ⟨.null⟩

abbrev nat (n : Nat) : Json := .int n

/-- A variant with its contents. -/
def variant (name : String) (contents : Json) : Json := .obj [(name, contents)]

/-- The name of a variant without contents. -/
def name? : Json → Option String
  | .str name => some name
  | .obj [(name, .null)] => some name
  | _ => none

def str? : Json → Option String
  | .str s => some s
  | _ => none

/-- The integer in a range of natural numbers. -/
def natBelow? (bound : Nat) : Json → Option Nat
  | .int n => if 0 ≤ n ∧ n < bound then some n.toNat else none
  | _ => none

/-- The field of an object; others are ignored. -/
def field? (name : String) : Json → Option Json
  | .obj fields => fields.lookup name
  | _ => none

/-- What a list holds, if every item can be read. -/
def list? {α : Type} (item? : Json → Option α) : Json → Option (List α)
  | .arr items => items.mapM item?
  | _ => none

end Json

end SymbolicMachine
