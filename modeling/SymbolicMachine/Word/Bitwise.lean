import SymbolicMachine.Word.Basic

/-!
Bits, bytes, shifts and rotations of words. Amounts and indices are words too, known or not, so
every formula guards against those that are out of range. A word that was read from memory and is
shifted right by whole bytes stays a window of bytes.
-/

namespace SymbolicMachine

def Term.wordBits : Term := .nat SymbolicMachine.wordBits

namespace Word

def and (v w : Word) : Word := ofTerm (v.term &&& w.term).masked

def or (v w : Word) : Word := ofTerm (v.term ||| w.term).masked

def xor (v w : Word) : Word := ofTerm (v.term ^^^ w.term).masked

def not (w : Word) : Word := ofTerm (w.term ^^^ .lit wordMask).masked

/-- The left shift; zero once the amount reaches the width. -/
def shiftLeft (w amount : Word) : Word :=
  ofTerm (.mkIte (.mkLt amount.term .wordBits) (w.term <<< amount.term).masked (.lit 0))

/-- The right shift of a window by a known number of whole bytes. -/
def shiftWindow? (w amount : Word) : Option Word :=
  if w.term.isLit then none
  else do
    let n ← amount.natLit?
    if n % 8 = 0 ∧ n ≤ wordBits then
      let window ← w.window?
      some (ofBytes (List.replicate (n / 8) (.lit 0) ++ window.take (wordBytes - n / 8)))
    else none

/-- The right shift; zero once the amount reaches the width. -/
def shiftRight (w amount : Word) : Word :=
  (w.shiftWindow? amount).getD <|
    ofTerm (.mkIte (.mkLt amount.term .wordBits) (w.term >>> amount.term).masked (.lit 0))

/-- The right shift that copies the sign. -/
def sshiftRight (w amount : Word) : Word := ofTerm (w.term.toSigned >>> amount.term).wrap

/-- A rotation by an amount modulo the width, toward the most significant end. -/
def rotateLeft (w amount : Word) : Word :=
  let k := Term.mkBinary .mod amount.term .wordBits
  ofTerm ((w.term <<< k) ||| (w.term >>> (.wordBits - k))).masked

/-- A rotation by an amount modulo the width, toward the least significant end. -/
def rotateRight (w amount : Word) : Word :=
  let k := Term.mkBinary .mod amount.term .wordBits
  ofTerm ((w.term >>> k) ||| (w.term <<< (.wordBits - k))).masked

def popcount (w : Word) : Word := ofTerm (.mkPopcount w.term)

/-- The bit at an index counted from the least significant end. -/
def testBit (w index : Word) : Word := ofTerm (.mkBinary .testBit w.term index.term)

/-- The byte at an index counted from the most significant end, and zero past the last. -/
def byte (w index : Word) : Word :=
  let shift := (Term.nat (wordBytes - 1) - index.term) * .lit 8
  ofTerm (.mkIte (.mkLt index.term (.nat wordBytes)) (w.term >>> shift).lowByte (.lit 0))

/-- Copies the sign of the byte at an index, counted from the least significant end, to all bits
above that byte. -/
def signExtend (w index : Word) : Word :=
  let width := (index.term + .lit 1) * .lit 8
  let lowMask := (Term.lit 1 <<< width) - .lit 1
  let low := w.term &&& lowMask
  let negative := Cond.mkEq (.mkBinary .testBit w.term (width - .lit 1)) (.lit 1)
  let extended := Term.mkIte negative (low ||| (.lit wordMask ^^^ lowMask)) low
  ofTerm (.mkIte (.mkLt index.term (.nat (wordBytes - 1))) extended w.term)

end Word

end SymbolicMachine
