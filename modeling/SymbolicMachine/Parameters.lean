/-!
The widths of the machine and the integers that follow from them.
-/

namespace SymbolicMachine

/-- Bytes in a machine word. -/
def wordBytes : Nat := 32

/-- Bits in a machine word. -/
def wordBits : Nat := 256

/-- Bits in an address. -/
def addressBits : Nat := 160

/-- Bytes in the field that selects an entry point. -/
def selectorBytes : Nat := 4

/-- Writes that end past this many bytes are refused. -/
def memoryLimit : Nat := 1 <<< 32

/-- Offsets and sizes from here on do not fit the host's index type. -/
def indexLimit : Nat := 1 <<< 64

/-- Words are the integers below this one. -/
def wordModulus : Int := (1 <<< wordBits : Nat)

/-- The word whose bits are all set. -/
def wordMask : Int := wordModulus - 1

/-- The least word that the signed reading takes as negative. -/
def signBit : Int := (1 <<< (wordBits - 1) : Nat)

/-- Addresses are the integers below this one. -/
def addressModulus : Int := (1 <<< addressBits : Nat)

end SymbolicMachine
