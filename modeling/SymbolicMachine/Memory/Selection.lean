import SymbolicMachine.Memory.Buffer

/-!
Words read at an offset that may be unknown, from a memory whose valid length may be unknown. If
both are known this is an ordinary read. Otherwise each byte of the word is a chain of choices over
all bytes of the memory, so the formula grows with 32 times their number.
-/

namespace SymbolicMachine

/-- The byte at an index: the first one whose place the index reaches when it counts down, and zero
if none does. -/
def selectByte (index : Term) (bytes : List Term) : Term :=
  bytes.zipIdx.foldr (fun (byte, k) rest => .mkIte (.mkEq (index - .nat k) (.lit 0)) byte rest)
    (.lit 0)

/-- Zero in place of the bytes that lie at the bound or past it. -/
def boundBytes (bound : Term) (bytes : List Term) : List Term :=
  bytes.zipIdx.map fun (byte, i) => .mkIte (.mkGt (.nat (i + 1)) bound) (.lit 0) byte

/-- The word at an index among the bytes below a bound. The index does not wrap: near the end of
the words it selects nothing. -/
def selectWord (index bound : Term) (bytes : List Term) : Word :=
  let bounded := boundBytes bound bytes
  .ofBytes ((List.range wordBytes).map fun j => selectByte (index + .nat j) bounded)

namespace Buffer

/-- The word at an index, where bytes at the bound or past it read as zero. Known bytes at a known
index are read up to their own end if the bound is unknown. -/
def readWordBounded (b : Buffer) (index bound : Word) : Word :=
  match index.natLit?, bound.natLit?, b with
  | some i, some n, b => (b.take n).readWord i
  | some i, none, known bytes => (known bytes).readWord i
  | _, _, b => selectWord index.term bound.term b.lift

/-- The word at an index, known or not. -/
def readWordAt (b : Buffer) (index : Word) : Word :=
  match index.natLit? with
  | some i => b.readWord i
  | none => b.readWordBounded index (.ofTerm (.nat b.length))

end Buffer

end SymbolicMachine
