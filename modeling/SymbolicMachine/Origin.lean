import SymbolicMachine.Formula.Basic

/-!
Tags that record where a word or an address came from. They are for people to read; the one tag
that computation looks at is the window of bytes that a word was put together from.
-/

namespace SymbolicMachine

/-- Where a value came from. -/
inductive Origin
  | untagged
  /-- An unknown with a name. -/
  | named (name : String)
  /-- An operator between two operands. -/
  | between (symbol left right : String)
  /-- An operator in front of two operands. -/
  | applied (symbol left right : String)
  /-- An operator in front of one operand. -/
  | unary (symbol operand : String)
  /-- The bytes of memory, most significant first. -/
  | bytes (window : List Term)

namespace Origin

def isUntagged : Origin → Bool
  | untagged => true
  | _ => false

/-- The bytes of memory behind a value. -/
def bytes? : Origin → Option (List Term)
  | bytes window => some window
  | _ => none

def text : Origin → String
  | untagged => ""
  | named name => name
  | between symbol left right => "(" ++ left ++ " " ++ symbol ++ " " ++ right ++ ")"
  | applied symbol left right => symbol ++ "(" ++ left ++ ", " ++ right ++ ")"
  | unary symbol operand => symbol ++ "(" ++ operand ++ ")"
  | bytes window => "bytes[" ++ toString window.length ++ "]"

/-- The text of a value behind the text of its tag. -/
def describe (o : Origin) (value : String) : String :=
  if o.isUntagged then value else o.text ++ " (" ++ value ++ ")"

instance : Inhabited Origin := ⟨untagged⟩

instance : ToString Origin := ⟨text⟩

end Origin

/-- What stands in texts for a value that is not known. -/
def unknownText : String := "<symbolic>"

end SymbolicMachine
