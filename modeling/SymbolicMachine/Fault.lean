/-!
What can go wrong when a symbolic value is asked for more than it can give.
-/

namespace SymbolicMachine

/-- The kinds of symbolic values that may turn out to be known. -/
inductive Kind
  | word | address | formula | bytes | buffer
  deriving DecidableEq, Repr

def Kind.name : Kind → String
  | .word => "word"
  | .address => "address"
  | .formula => "formula"
  | .bytes => "byte sequence"
  | .buffer => "buffer"

inductive Fault
  /-- A value was to be known but still depends on variables. -/
  | unresolved (kind : Kind)
  /-- A caller vouched for a value to be known, and it was not. -/
  | brokenPromise (kind : Kind)
  /-- Two words that are not both known were to be compared outright. -/
  | unresolvedEquality
  /-- A write was to end outside the memory; the number is the one to blame. -/
  | offsetOverflow (number : Nat)
  deriving DecidableEq, Repr

/-- The text that tells a person what went wrong. -/
def Fault.message : Fault → String
  | .unresolved kind | .brokenPromise kind =>
    "cannot force unresolved " ++ kind.name ++ " to a concrete value"
  | .unresolvedEquality => "structural equality on unresolved words is a solver question"
  | .offsetOverflow n => "memory offset " ++ toString n ++ " is not addressable"

end SymbolicMachine
