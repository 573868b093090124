import SymbolicMachine.Word.Basic

/-!
Addresses: the low 160 bits of a word, with a tag of their own.
-/

namespace SymbolicMachine

structure Address where
  origin : Origin
  term : Term

namespace Address

/-- An address without a tag; the formula is taken as it is. -/
def ofTerm (t : Term) : Address := ⟨.untagged, t⟩

/-- The address in the low bits of a term. -/
def ofLowBits (t : Term) : Address := ofTerm (.mkBinary .mod t (.lit addressModulus))

def lit (n : Nat) : Address := ofLowBits (.nat n)

def named (name : String) : Address := ⟨.named name, .var name⟩

def ofWord (w : Word) : Address := ofLowBits w.term

def toWord (a : Address) : Word := .ofTerm a.term

def natLit? (a : Address) : Option Nat := a.term.natLit?

instance : Inhabited Address := ⟨ofTerm (.lit 0)⟩

/-- The text of an address: its tag, and its value with all hexadecimal digits. -/
def text (a : Address) : String :=
  let value := a.term.lit?.map fun v => "0x" ++ Integer.paddedHex (addressBits / 4) v
  a.origin.describe (value.getD unknownText)

instance : ToString Address := ⟨text⟩

end Address

end SymbolicMachine
