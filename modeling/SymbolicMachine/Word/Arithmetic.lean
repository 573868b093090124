import SymbolicMachine.Word.Basic

/-!
Arithmetic and comparison of words. Unsigned quotients and remainders, powers and products modulo a
word need no reduction, because they stay in range by themselves. Signed operations read their
operands in two's complement, and everything divided by zero is zero.
-/

namespace SymbolicMachine.Word

def add (v w : Word) : Word := ofTerm (v.term + w.term).wrap

def sub (v w : Word) : Word := ofTerm (v.term - w.term).wrap

def mul (v w : Word) : Word := ofTerm (v.term * w.term).wrap

/-- The unsigned quotient. -/
def div (v w : Word) : Word := ofTerm (.mkBinary .div v.term w.term)

/-- The unsigned remainder. -/
def rem (v w : Word) : Word := ofTerm (.mkBinary .rem v.term w.term)

/-- The signed quotient, rounded toward zero. -/
def sdiv (v w : Word) : Word := ofTerm (Term.mkBinary .div v.term.toSigned w.term.toSigned).wrap

/-- The signed remainder, with the sign of the dividend. -/
def smod (v w : Word) : Word := ofTerm (Term.mkBinary .rem v.term.toSigned w.term.toSigned).wrap

/-- The sum modulo a word, without wrapping before. -/
def addMod (v w m : Word) : Word := ofTerm (Term.mkModular .addMod v.term w.term m.term).wrap

/-- The product modulo a word, without wrapping before. -/
def mulMod (v w m : Word) : Word := ofTerm (.mkModular .mulMod v.term w.term m.term)

def exp (base exponent : Word) : Word :=
  ofTerm (.mkModular .powMod base.term exponent.term (.lit wordModulus))

def lt (v w : Word) : Word := ofCond (.mkLt v.term w.term)

def gt (v w : Word) : Word := ofCond (.mkGt v.term w.term)

def slt (v w : Word) : Word := ofCond (.mkLt v.term.toSigned w.term.toSigned)

def sgt (v w : Word) : Word := ofCond (.mkGt v.term.toSigned w.term.toSigned)

def eq (v w : Word) : Word := ofCond (v.equation w)

def isZero (w : Word) : Word := ofCond (.mkEq w.term (.lit 0))

instance : Add Word := ⟨add⟩
instance : Sub Word := ⟨sub⟩
instance : Mul Word := ⟨mul⟩

end SymbolicMachine.Word
