import SymbolicMachine.Formula.Basic
import SymbolicMachine.Integer
import SymbolicMachine.Serial.Json

/-!
Formulas as JSON. A node is stored under the name of its variant, exactly as it is: reading folds
nothing. An integer is stored as its sign and the digits of its magnitude in base `2 ^ 32`, the
least significant first; reading takes superfluous zeros, and takes a sign or digits of zero for
zero.
-/

namespace SymbolicMachine

def Integer.toJson (x : Int) : Json :=
  .arr [.int x.sign, .arr ((digits 32 (digitCount 32 x.natAbs) x.natAbs).map .nat)]

/-- The sign of a stored integer. -/
def Integer.signOfJson? : Json → Option Int
  | .int s => if s = -1 ∨ s = 0 ∨ s = 1 then some s else none
  | _ => none

def Integer.ofJson? : Json → Option Int
  | .arr [s, ds] => do
    let s ← signOfJson? s
    let ds ← ds.list? (Json.natBelow? (1 <<< 32))
    return s * ofDigits 32 ds
  | _ => none

/-- The stored name of an operator. -/
def BinaryOp.variantName : BinaryOp → String
  | .add => "Add"
  | .sub => "Sub"
  | .mul => "Mul"
  | .div => "Div"
  | .rem => "Rem"
  | .mod => "Mod"
  | .and => "And"
  | .or => "Or"
  | .xor => "Xor"
  | .shl => "Shl"
  | .shr => "Shr"
  | .testBit => "TestBit"

def BinaryOp.ofName? : String → Option BinaryOp
  | "Add" => some .add
  | "Sub" => some .sub
  | "Mul" => some .mul
  | "Div" => some .div
  | "Rem" => some .rem
  | "Mod" => some .mod
  | "And" => some .and
  | "Or" => some .or
  | "Xor" => some .xor
  | "Shl" => some .shl
  | "Shr" => some .shr
  | "TestBit" => some .testBit
  | _ => none

def ModularOp.variantName : ModularOp → String
  | .addMod => "AddMod"
  | .mulMod => "MulMod"
  | .powMod => "PowMod"

def ModularOp.ofName? : String → Option ModularOp
  | "AddMod" => some .addMod
  | "MulMod" => some .mulMod
  | "PowMod" => some .powMod
  | _ => none

def Comparison.variantName : Comparison → String
  | .eq => "Eq"
  | .lt => "Lt"
  | .le => "Le"

def Comparison.ofName? : String → Option Comparison
  | "Eq" => some .eq
  | "Lt" => some .lt
  | "Le" => some .le
  | _ => none

mutual
def Term.toJson : Term → Json
  | .lit v => .variant "Lit" (Integer.toJson v)
  | .var name => .variant "Var" (.str name)
  | .popcount t => .variant "Popcount" t.toJson
  | .binary op l r => .variant "Binary" (.arr [.str op.variantName, l.toJson, r.toJson])
  | .modular op x y m =>
    .variant "Ternary" (.arr [.str op.variantName, x.toJson, y.toJson, m.toJson])
  | .ite c t e => .variant "Ite" (.arr [c.toJson, t.toJson, e.toJson])

def Cond.toJson : Cond → Json
  | .lit b => .variant "Lit" (.bool b)
  | .compare op l r => .variant "Cmp" (.arr [.str op.variantName, l.toJson, r.toJson])
  | .not c => .variant "Not" c.toJson
  | .and c d => .variant "And" (.arr [c.toJson, d.toJson])
  | .or c d => .variant "Or" (.arr [c.toJson, d.toJson])
end

mutual
def Term.ofJson? : Json → Option Term
  | .obj [("Lit", j)] => (Integer.ofJson? j).map .lit
  | .obj [("Var", j)] => j.str?.map .var
  | .obj [("Popcount", j)] => (Term.ofJson? j).map .popcount
  | .obj [("Binary", .arr [op, l, r])] => do
    let op ← op.name?.bind BinaryOp.ofName?
    return .binary op (← Term.ofJson? l) (← Term.ofJson? r)
  | .obj [("Ternary", .arr [op, x, y, m])] => do
    let op ← op.name?.bind ModularOp.ofName?
    return .modular op (← Term.ofJson? x) (← Term.ofJson? y) (← Term.ofJson? m)
  | .obj [("Ite", .arr [c, t, e])] => do
    return .ite (← Cond.ofJson? c) (← Term.ofJson? t) (← Term.ofJson? e)
  | _ => none

def Cond.ofJson? : Json → Option Cond
  | .obj [("Lit", .bool b)] => some (.lit b)
  | .obj [("Cmp", .arr [op, l, r])] => do
    let op ← op.name?.bind Comparison.ofName?
    return .compare op (← Term.ofJson? l) (← Term.ofJson? r)
  | .obj [("Not", j)] => (Cond.ofJson? j).map .not
  | .obj [("And", .arr [c, d])] => return .and (← Cond.ofJson? c) (← Cond.ofJson? d)
  | .obj [("Or", .arr [c, d])] => return .or (← Cond.ofJson? c) (← Cond.ofJson? d)
  | _ => none
end

end SymbolicMachine
