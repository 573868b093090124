import SymbolicMachine.Memory.Known
import SymbolicMachine.Word.Basic

/-!
Memory in one of two forms: known bytes, or a formula for each byte. Both answer every access alike.
Reads past the end give zero; writes give a new buffer, which is longer if the window ends past the
old one. As soon as one side of an operation is symbolic, the other is lifted to formulas.
-/

namespace SymbolicMachine

/-- Memory. Each formula of the symbolic form stands for a byte. -/
inductive Buffer
  | known (bytes : Bytes)
  | symbolic (bytes : List Term)

/-- Known bytes as literals. -/
def Bytes.lift (bytes : Bytes) : List Term := bytes.map fun b => .nat b.toNat

namespace Buffer

def empty : Buffer := known []

instance : Inhabited Buffer := ⟨empty⟩

def lift : Buffer → List Term
  | known bytes => bytes.lift
  | symbolic bytes => bytes

def toSymbolic (b : Buffer) : Buffer := symbolic b.lift

def known? : Buffer → Option Bytes
  | known bytes => some bytes
  | symbolic _ => none

def length : Buffer → Nat
  | known bytes => bytes.length
  | symbolic bytes => bytes.length

def isEmpty (b : Buffer) : Bool := b.length == 0

/-- The 32 bytes of a word. -/
def ofWord (w : Word) : Buffer :=
  match w.natLit? with
  | some n => known (.ofWord n)
  | none => symbolic w.toBytes

def take (n : Nat) : Buffer → Buffer
  | known bytes => known (bytes.take n)
  | symbolic bytes => symbolic (bytes.take n)

def drop (n : Nat) : Buffer → Buffer
  | known bytes => known (bytes.drop n)
  | symbolic bytes => symbolic (bytes.drop n)

def append : Buffer → Buffer → Buffer
  | known a, known b => known (a ++ b)
  | a, b => symbolic (a.lift ++ b.lift)

instance : Append Buffer := ⟨append⟩

/-- The byte at an offset. -/
def readByte (b : Buffer) (offset : Nat) : Term :=
  match b with
  | known bytes => .nat (bytes.readByte offset).toNat
  | symbolic bytes => Padded.get (.lit 0) bytes offset

/-- Exactly `size` bytes from an offset on. -/
def slice (b : Buffer) (offset size : Nat) : Buffer :=
  match b with
  | known bytes => known (bytes.slice offset size)
  | symbolic bytes => symbolic (Padded.slice (.lit 0) bytes offset size)

/-- The number in the `width` bytes at an offset, as a word. A symbolic one is tagged with its
bytes, so that it can still be shifted byte by byte. -/
def readField (b : Buffer) (offset width : Nat) : Word :=
  match b with
  | known bytes => .lit (bytes.readField offset width)
  | symbolic bytes => .ofBytes (Padded.slice (.lit 0) bytes offset width)

def readWord (b : Buffer) (offset : Nat) : Word := b.readField offset wordBytes

def readSelector (b : Buffer) (offset : Nat) : Word := b.readField offset selectorBytes

/-- Allows a write of `size` bytes at an offset if it ends inside the memory. The offset is to
blame, unless it is the size that cannot be an index. -/
def checkWindow (offset size : Nat) : Except Fault Unit :=
  if indexLimit ≤ offset then .error (.offsetOverflow offset)
  else if indexLimit ≤ size then .error (.offsetOverflow size)
  else if memoryLimit < offset + size then .error (.offsetOverflow offset)
  else .ok ()

/-- Puts bytes in place from an offset on. -/
def overwrite (b : Buffer) (offset : Nat) (window : Buffer) : Buffer :=
  match b, window with
  | known bytes, known window => known (bytes.overwrite offset window)
  | b, window => symbolic (Padded.overwrite (.lit 0) b.lift offset window.lift)

/-- Copies `size` bytes of a source from `start` on to the given offset. A copy of nothing leaves
the memory as it is, wherever it was to go. -/
def writeRange (b : Buffer) (offset : Nat) (source : Buffer) (start size : Nat) :
    Except Fault Buffer :=
  if size = 0 then .ok b
  else do
    checkWindow offset size
    return b.overwrite offset (source.slice start size)

def writeWord (b : Buffer) (offset : Nat) (w : Word) : Except Fault Buffer :=
  match b, w.natLit? with
  | known bytes, some n => do
    checkWindow offset wordBytes
    return known (bytes.writeWord offset n)
  | b, _ => b.writeRange offset (symbolic w.toBytes) 0 wordBytes

/-- Stores the lowest byte of a word. -/
def writeByte (b : Buffer) (offset : Nat) (w : Word) : Except Fault Buffer :=
  match b, w.lowByte.natLit? with
  | known bytes, some n => do
    checkWindow offset 1
    return known (bytes.writeByte offset (.ofNat n))
  | b, _ => b.writeRange offset (symbolic [w.lowByte]) 0 1

end Buffer

end SymbolicMachine
