import SymbolicMachine.Formula.Basic
import SymbolicMachine.Integer

/-!
The text of formulas. Every operator with two operands is in parentheses, functions are written as
calls, and a negation is a mark in front. `write` puts the text of a formula before the characters
that follow it.
-/

namespace SymbolicMachine

/-- A literal: decimal while its magnitude fits in 64 bits, and `0x` with the signed hexadecimal
numeral beyond. -/
def writeLiteral (v : Int) : List Char :=
  if v.natAbs < 1 <<< 64 then Integer.numeral 10 v else '0' :: 'x' :: Integer.numeral 16 v

mutual
/-- The characters of a term, followed by `rest`. -/
def Term.write (rest : List Char) : Term → List Char
  | .lit v => writeLiteral v ++ rest
  | .var name => name.toList ++ rest
  | .popcount t => "popcount(".toList ++ t.write (')' :: rest)
  | .binary op l r =>
    '(' :: l.write (' ' :: (op.symbol.toList ++ ' ' :: r.write (')' :: rest)))
  | .modular op x y m =>
    op.name.toList ++ '(' ::
      x.write (',' :: ' ' :: y.write (',' :: ' ' :: m.write (')' :: rest)))
  | .ite c t e =>
    "ite(".toList ++ c.write (',' :: ' ' :: t.write (',' :: ' ' :: e.write (')' :: rest)))

/-- The characters of a condition, followed by `rest`. -/
def Cond.write (rest : List Char) : Cond → List Char
  | .lit b => (if b then "true" else "false").toList ++ rest
  | .compare op l r =>
    '(' :: l.write (' ' :: (op.symbol.toList ++ ' ' :: r.write (')' :: rest)))
  | .not c => '!' :: c.write rest
  | .and c d => '(' :: c.write (" && ".toList ++ d.write (')' :: rest))
  | .or c d => '(' :: c.write (" || ".toList ++ d.write (')' :: rest))
end

def Term.text (t : Term) : String := .ofList (t.write [])

def Cond.text (c : Cond) : String := .ofList (c.write [])

instance : ToString Term := ⟨Term.text⟩

instance : ToString Cond := ⟨Cond.text⟩

end SymbolicMachine
