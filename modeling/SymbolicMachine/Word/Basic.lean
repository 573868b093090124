import SymbolicMachine.Parameters
import SymbolicMachine.Formula.Build
import SymbolicMachine.Integer
import SymbolicMachine.Fault
import SymbolicMachine.Origin

/-!
Machine words: a formula for an integer below the word modulus and a tag of where it came from.
Formulas are not bounded, so whatever could leave the range is reduced or masked. A word counts as
read from a window of bytes only if its formula is that very window put together; a tag that
disagrees with the formula is ignored.
-/

namespace SymbolicMachine

namespace Term

/-- Reduces a term to the words. -/
def wrap (t : Term) : Term := mkBinary .mod t (.lit wordModulus)

/-- Keeps the bits of a word. -/
def masked (t : Term) : Term := t &&& .lit wordMask

/-- The two's-complement reading of a word. -/
def toSigned (t : Term) : Term := mkIte (.mkGe t (.lit signBit)) (t - .lit wordModulus) t

/-- The integer with the given bytes, most significant first. -/
def ofBytes (bytes : List Term) : Term :=
  bytes.foldl (fun high byte => high * .lit 256 + byte) (.lit 0)

/-- The lowest byte. -/
def lowByte (t : Term) : Term := t &&& .lit 255

end Term

structure Word where
  origin : Origin
  term : Term

namespace Word

/-- A word without a tag; the formula is taken as it is. -/
def ofTerm (t : Term) : Word := ⟨.untagged, t⟩

def lit (n : Nat) : Word := ofTerm (Term.nat n).wrap

def named (name : String) : Word := ⟨.named name, .var name⟩

/-- The word with the given bytes, most significant first, tagged with them. -/
def ofBytes (bytes : List Term) : Word := ⟨.bytes bytes, .ofBytes bytes⟩

/-- One or zero, as the condition holds or not. -/
def ofCond (c : Cond) : Word := ofTerm (.mkIte c (.lit 1) (.lit 0))

instance : Inhabited Word := ⟨ofTerm (.lit 0)⟩

/-- The 32 bytes that a word was read from. -/
def window? (w : Word) : Option (List Term) :=
  match w.origin.bytes? with
  | some window =>
    if window.length == wordBytes && .ofBytes window == w.term then some window else none
  | none => none

/-- The bytes of a word, most significant first: those of a literal's magnitude, 32 or as many
more as it needs, the window that the word was read from, or shifts of the formula. -/
def toBytes (w : Word) : List Term :=
  match w.term with
  | .lit v =>
    let count := max wordBytes (Integer.digitCount 8 v.natAbs)
    (Integer.digits 8 count v.natAbs).reverse.map .nat
  | t => w.window?.getD <| (List.range wordBytes).map fun i =>
    (t >>> .nat (8 * (wordBytes - 1 - i))).lowByte

def lowByte (w : Word) : Term := w.term.lowByte

def natLit? (w : Word) : Option Nat := w.term.natLit?

/-- The condition that two words are equal. -/
def equation (v w : Word) : Cond := .mkEq v.term w.term

/-- Compares two known words. -/
def compareKnown (v w : Word) : Except Fault Bool :=
  match v.term, w.term with
  | .lit x, .lit y => .ok (x == y)
  | _, _ => .error .unresolvedEquality

/-- The text of a word: its tag, and its value in decimal. -/
def text (w : Word) : String :=
  w.origin.describe ((w.term.lit?.map Integer.decimal).getD unknownText)

instance : ToString Word := ⟨text⟩

end Word

end SymbolicMachine
