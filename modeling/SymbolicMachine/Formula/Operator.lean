import SymbolicMachine.Integer

/-!
The operators of formulas and their values on integers. An operator has no value outside its domain:
a negative shift amount or bit index, or a left shift too long to be worth writing out. Division by
zero is inside the domain and gives zero, as the machine has it.
-/

namespace SymbolicMachine

/-- Operators of two integers. `div` and `rem` round toward zero, `mod` rounds toward negative
infinity, and `testBit x i` is bit `i` of `x` as 0 or 1. -/
inductive BinaryOp
  | add | sub | mul | div | rem | mod | and | or | xor | shl | shr | testBit
  deriving DecidableEq, Repr

/-- Operators `(x op y) mod m` without an intermediate reduction. -/
inductive ModularOp
  | addMod | mulMod | powMod
  deriving DecidableEq, Repr

inductive Comparison
  | eq | lt | le
  deriving DecidableEq, Repr

/-- The longest left shift that has a value. -/
def shiftLimit : Nat := 65536

/-- The remainder with the sign of the divisor, and zero for the divisor zero. -/
def Integer.floorMod (x m : Int) : Int := if m = 0 then 0 else x.fmod m

/-- The value of an operator, if the operands lie in its domain. -/
def BinaryOp.eval (op : BinaryOp) (x y : Int) : Option Int :=
  match op with
  | .add => some (x + y)
  | .sub => some (x - y)
  | .mul => some (x * y)
  | .div => some (x.tdiv y)
  | .rem => some (if y = 0 then 0 else x.tmod y)
  | .mod => some (Integer.floorMod x y)
  | .and => some (Integer.and x y)
  | .or => some (Integer.or x y)
  | .xor => some (Integer.xor x y)
  | .shl => if 0 ≤ y ∧ y ≤ shiftLimit then some (x * (1 <<< y.toNat : Nat)) else none
  | .shr => if 0 ≤ y then some (x >>> y.toNat) else none
  | .testBit => if 0 ≤ y then some (Integer.bit x y.toNat).toInt else none

/-- The value of a modular operator; powers need a nonnegative exponent and modulus, and the
modulus zero gives zero before anything else is looked at. -/
def ModularOp.eval (op : ModularOp) (x y m : Int) : Option Int :=
  if m = 0 then some 0
  else match op with
    | .addMod => some (Integer.floorMod (x + y) m)
    | .mulMod => some (Integer.floorMod (x * y) m)
    | .powMod => if 0 ≤ y ∧ 0 ≤ m then some (Integer.powMod x y.toNat m) else none

def Comparison.holds (op : Comparison) (x y : Int) : Bool :=
  match op with
  | .eq => x == y
  | .lt => x < y
  | .le => x ≤ y

/-- The number of ones, which only a nonnegative integer has. -/
def Integer.bitCount? (x : Int) : Option Int :=
  x.toNat?.map fun n => (bitCount n : Int)

/-- The operator between its operands. -/
def BinaryOp.symbol : BinaryOp → String
  | .add => "+"
  | .sub => "-"
  | .mul => "*"
  | .div => "/"
  | .rem => "%"
  | .mod => "mod"
  | .and => "&"
  | .or => "|"
  | .xor => "^"
  | .shl => "<<"
  | .shr => ">>"
  | .testBit => "bit"

/-- The operator in front of its operands. -/
def ModularOp.name : ModularOp → String
  | .addMod => "addmod"
  | .mulMod => "mulmod"
  | .powMod => "powmod"

/-- The comparison between its operands. -/
def Comparison.symbol : Comparison → String
  | .eq => "=="
  | .lt => "<"
  | .le => "<="

end SymbolicMachine
