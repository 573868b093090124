import SymbolicMachine.Address
import SymbolicMachine.Memory.Buffer

/-!
Known values behind symbolic ones. A caller may ask whether there is one, demand one and be told of
the failure, or vouch for one.
-/

namespace SymbolicMachine

/-- Symbolic values of type `α` that may stand for a known value of type `β`. -/
class Resolve (α : Type) (β : outParam Type) where
  /-- What to call such values in messages. -/
  kind : Kind
  /-- The known value, if there is one. -/
  known? : α → Option β

namespace Resolve

variable {α β : Type} [Resolve α β]

/-- Whether there is a known value. -/
def isKnown (x : α) : Bool := (known? x).isSome

/-- Demands the known value. -/
def force (x : α) : Except Fault β :=
  match known? x with
  | some v => .ok v
  | none => .error (.unresolved (kind α))

/-- Takes the known value that the caller vouches for. -/
def trust (x : α) : Except Fault β :=
  match known? x with
  | some v => .ok v
  | none => .error (.brokenPromise (kind α))

end Resolve

/-- The value of a literal that is a byte. -/
def Term.byteLit? (t : Term) : Option UInt8 := do
  let n ← t.natLit?
  if n < 256 then some (.ofNat n) else none

/-- The values of terms that all are literal bytes. -/
def byteLits? (terms : List Term) : Option Bytes := terms.mapM Term.byteLit?

instance : Resolve Word Nat := ⟨.word, Word.natLit?⟩

instance : Resolve Address Nat := ⟨.address, Address.natLit?⟩

instance : Resolve Term Nat := ⟨.formula, Term.natLit?⟩

instance : Resolve (List Term) Bytes := ⟨.bytes, byteLits?⟩

instance : Resolve Buffer Bytes where
  kind := .buffer
  known?
    | .known bytes => some bytes
    | .symbolic terms => byteLits? terms

end SymbolicMachine
