import SymbolicMachine.Formula.Basic

/-!
Building formulas with folding. Each `mk` function stands for the constructor of the same name and
returns a smaller formula where one is at hand: the literal, if the operands are literals in the
operator's domain, or else what an identity leaves, whatever the other operand may be. `rebuild`
folds at every node of a tree, from its leaves up.
-/

namespace SymbolicMachine

/-- The literal result of an operator on literals. -/
def BinaryOp.fold? (op : BinaryOp) : Term → Term → Option Term
  | .lit x, .lit y => (op.eval x y).map .lit
  | _, _ => none

/-- What an identity leaves of an operation when only one side is known, or neither. -/
def BinaryOp.simplify? (op : BinaryOp) (l r : Term) : Option Term :=
  match op with
  | .add | .or | .xor =>
    if l = .lit 0 then some r else if r = .lit 0 then some l else none
  | .sub => if r = .lit 0 then some l else none
  | .shl | .shr =>
    if r = .lit 0 then some l else if l = .lit 0 then some (.lit 0) else none
  | .mul =>
    if l = .lit 0 ∨ r = .lit 0 then some (.lit 0)
    else if l = .lit 1 then some r
    else if r = .lit 1 then some l else none
  | .and => if l = .lit 0 ∨ r = .lit 0 then some (.lit 0) else none
  | .div =>
    if r = .lit 1 then some l
    else if l = .lit 0 ∨ r = .lit 0 then some (.lit 0) else none
  | .rem => if l = .lit 0 ∨ r = .lit 0 ∨ r = .lit 1 then some (.lit 0) else none
  | .mod =>
    if l = .lit 0 ∨ r = .lit 0 ∨ r = .lit 1 then some (.lit 0)
    else match l with
      | .binary .mod _ m => if m == r then some l else none
      | _ => none
  | .testBit => none

/-- The literal result of a modular operator on literals. -/
def ModularOp.fold? (op : ModularOp) : Term → Term → Term → Option Term
  | .lit x, .lit y, .lit m => (op.eval x y m).map .lit
  | _, _, _ => none

namespace Term

def mkBinary (op : BinaryOp) (l r : Term) : Term :=
  (op.fold? l r <|> op.simplify? l r).getD (.binary op l r)

/-- Nothing but zero is left modulo zero or one. -/
def mkModular (op : ModularOp) (x y m : Term) : Term :=
  (op.fold? x y m).getD (if m = .lit 0 ∨ m = .lit 1 then .lit 0 else .modular op x y m)

def mkIte (c : Cond) (t e : Term) : Term :=
  match c with
  | .lit b => if b then t else e
  | c => if t == e then t else .ite c t e

def mkPopcount (t : Term) : Term :=
  ((t.lit?.bind Integer.bitCount?).map .lit).getD (.popcount t)

instance : Add Term := ⟨mkBinary .add⟩
instance : Sub Term := ⟨mkBinary .sub⟩
instance : Mul Term := ⟨mkBinary .mul⟩
instance : AndOp Term := ⟨mkBinary .and⟩
instance : OrOp Term := ⟨mkBinary .or⟩
instance : XorOp Term := ⟨mkBinary .xor⟩
instance : ShiftLeft Term := ⟨mkBinary .shl⟩
instance : ShiftRight Term := ⟨mkBinary .shr⟩

end Term

namespace Cond

/-- Builds a comparison; a term is equal to itself and at most itself. -/
def mkCompare (op : Comparison) (l r : Term) : Cond :=
  match l, r with
  | .lit x, .lit y => .lit (op.holds x y)
  | l, r => if l == r then .lit (op ≠ .lt) else .compare op l r

def mkEq (l r : Term) : Cond := mkCompare .eq l r

def mkLt (l r : Term) : Cond := mkCompare .lt l r

def mkLe (l r : Term) : Cond := mkCompare .le l r

def mkGt (l r : Term) : Cond := mkLt r l

def mkGe (l r : Term) : Cond := mkLe r l

/-- Builds the negation; two negations cancel. -/
def mkNot : Cond → Cond
  | .lit b => .lit !b
  | .not c => c
  | c => .not c

def mkAnd (c d : Cond) : Cond :=
  if c = .lit false ∨ d = .lit false then .lit false
  else if c = .lit true then d
  else if d = .lit true then c
  else if c == d then c else .and c d

def mkOr (c d : Cond) : Cond :=
  if c = .lit true ∨ d = .lit true then .lit true
  else if c = .lit false then d
  else if d = .lit false then c
  else if c == d then c else .or c d

/-- A named truth value: the variable of that name is not zero. -/
def named (name : String) : Cond := (mkEq (.var name) (.lit 0)).mkNot

end Cond

mutual
/-- The term that folding makes of a tree. -/
def Term.rebuild : Term → Term
  | .lit v => .lit v
  | .var name => .var name
  | .popcount t => .mkPopcount t.rebuild
  | .binary op l r => .mkBinary op l.rebuild r.rebuild
  | .modular op x y m => .mkModular op x.rebuild y.rebuild m.rebuild
  | .ite c t e => .mkIte c.rebuild t.rebuild e.rebuild

/-- The condition that folding makes of a tree. -/
def Cond.rebuild : Cond → Cond
  | .lit b => .lit b
  | .compare op l r => .mkCompare op l.rebuild r.rebuild
  | .not c => .mkNot c.rebuild
  | .and c d => .mkAnd c.rebuild d.rebuild
  | .or c d => .mkOr c.rebuild d.rebuild
end

end SymbolicMachine
