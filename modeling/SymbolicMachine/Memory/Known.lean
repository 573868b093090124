import SymbolicMachine.Parameters
import SymbolicMachine.Integer
import SymbolicMachine.Memory.Padded

/-!
Memory of known bytes. Words are stored with their most significant byte first and modulo the word
modulus; nothing here builds a formula.
-/

namespace SymbolicMachine

abbrev Bytes := List UInt8

namespace Bytes

/-- The number with the given bytes, most significant first. -/
def value (bytes : Bytes) : Nat := bytes.foldl (fun high byte => 256 * high + byte.toNat) 0

/-- The 32 bytes of a number modulo the word modulus, most significant first. -/
def ofWord (n : Nat) : Bytes := (Integer.digits 8 wordBytes n).reverse.map UInt8.ofNat

/-- The byte at an offset, zero past the end. -/
def readByte (bytes : Bytes) (offset : Nat) : UInt8 := Padded.get 0 bytes offset

def slice (bytes : Bytes) (offset size : Nat) : Bytes := Padded.slice 0 bytes offset size

/-- The number in the `width` bytes at an offset. -/
def readField (bytes : Bytes) (offset width : Nat) : Nat := value (bytes.slice offset width)

def readWord (bytes : Bytes) (offset : Nat) : Nat := bytes.readField offset wordBytes

def readSelector (bytes : Bytes) (offset : Nat) : Nat := bytes.readField offset selectorBytes

/-- Puts bytes in place from an offset on. -/
def overwrite (bytes : Bytes) (offset : Nat) (window : Bytes) : Bytes :=
  Padded.overwrite 0 bytes offset window

/-- Copies `size` bytes of a source from `start` on to the given offset; a copy of nothing leaves
the memory as it is. -/
def writeRange (bytes : Bytes) (offset : Nat) (source : Bytes) (start size : Nat) : Bytes :=
  if size = 0 then bytes else bytes.overwrite offset (source.slice start size)

def writeWord (bytes : Bytes) (offset n : Nat) : Bytes := bytes.overwrite offset (ofWord n)

def writeByte (bytes : Bytes) (offset : Nat) (byte : UInt8) : Bytes :=
  bytes.overwrite offset [byte]

end Bytes

end SymbolicMachine
