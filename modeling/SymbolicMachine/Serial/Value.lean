import SymbolicMachine.Address
import SymbolicMachine.Memory.Buffer
import SymbolicMachine.Serial.Formula

/-!
Tags, words, addresses and buffers as JSON. A word or an address is an object with a tag and a
formula, which may also be given in this order in an array; reading does not ask whether the two
agree, or whether the formula is in range.
-/

namespace SymbolicMachine

/-- The text in a field of an object. -/
def Json.textField? (name : String) (j : Json) : Option String := (j.field? name).bind str?

def Origin.toJson : Origin → Json
  | .untagged => .str "None"
  | .named name => .variant "Var" (.str name)
  | .between symbol left right =>
    .variant "Infix" (.obj [("symbol", .str symbol), ("left", .str left), ("right", .str right)])
  | .applied symbol left right =>
    .variant "Prefix" (.obj [("symbol", .str symbol), ("left", .str left), ("right", .str right)])
  | .unary symbol operand =>
    .variant "Unary" (.obj [("symbol", .str symbol), ("operand", .str operand)])
  | .bytes window => .variant "FromBytes" (.arr (window.map Term.toJson))

def Origin.ofJson? (j : Json) : Option Origin :=
  if j.name? = some "None" then some .untagged
  else match j with
    | .obj [("Var", j)] => j.str?.map .named
    | .obj [("Infix", j)] => do
      let symbol ← j.textField? "symbol"
      return .between symbol (← j.textField? "left") (← j.textField? "right")
    | .obj [("Prefix", j)] => do
      let symbol ← j.textField? "symbol"
      return .applied symbol (← j.textField? "left") (← j.textField? "right")
    | .obj [("Unary", j)] => do
      return .unary (← j.textField? "symbol") (← j.textField? "operand")
    | .obj [("FromBytes", j)] => (j.list? Term.ofJson?).map .bytes
    | _ => none

/-- The stored form of a formula with a tag. -/
def Origin.toJsonWith (o : Origin) (t : Term) : Json :=
  .obj [("provenance", o.toJson), ("expr", t.toJson)]

/-- The formula with a tag that has the given stored form. -/
def Origin.ofJsonWith? : Json → Option (Origin × Term)
  | .arr [o, t] => do return (← ofJson? o, ← Term.ofJson? t)
  | j => do
    let o ← (j.field? "provenance").bind ofJson?
    return (o, ← (j.field? "expr").bind Term.ofJson?)

def Word.toJson (w : Word) : Json := w.origin.toJsonWith w.term

def Word.ofJson? (j : Json) : Option Word := (Origin.ofJsonWith? j).map fun (o, t) => ⟨o, t⟩

def Address.toJson (a : Address) : Json := a.origin.toJsonWith a.term

def Address.ofJson? (j : Json) : Option Address :=
  (Origin.ofJsonWith? j).map fun (o, t) => ⟨o, t⟩

def Buffer.toJson : Buffer → Json
  | .known bytes => .variant "Concrete" (.arr (bytes.map fun b => .nat b.toNat))
  | .symbolic bytes => .variant "Symbolic" (.arr (bytes.map Term.toJson))

def Buffer.ofJson? : Json → Option Buffer
  | .obj [("Concrete", j)] => (j.list? (Json.natBelow? 256)).map fun ns => known (ns.map .ofNat)
  | .obj [("Symbolic", j)] => (j.list? Term.ofJson?).map symbolic
  | _ => none

end SymbolicMachine
