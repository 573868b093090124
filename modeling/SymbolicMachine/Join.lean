import SymbolicMachine.Address
import SymbolicMachine.Memory.Buffer

/-!
Joining two values under a condition: the join is the first where the condition holds and the second
where it does not. Values that are equal already join to themselves, so no choice is left in them.
-/

namespace SymbolicMachine

/-- Values that can be joined under a condition. -/
class Join (α : Type) where
  /-- The value that is `x` where `c` holds and `y` elsewhere. -/
  join (c : Cond) (x y : α) : α

export Join (join)

instance : Join Term := ⟨Term.mkIte⟩

instance : Join Cond where
  join c p q := if p == q then p else .mkOr (.mkAnd c p) (.mkAnd c.mkNot q)

instance : Join Word where
  join c v w := if v.term == w.term then v else .ofTerm (.mkIte c v.term w.term)

instance : Join Address where
  join c a b := if a.term == b.term then a else .ofTerm (.mkIte c a.term b.term)

/-- Lists join place by place; the default stands in for what the shorter one lacks. -/
def joinLists {α : Type} [Join α] [Inhabited α] (c : Cond) (xs ys : List α) : List α :=
  List.zipWith (join c) (xs.rightpad ys.length default) (ys.rightpad xs.length default)

instance {α : Type} [Join α] [Inhabited α] : Join (List α) := ⟨joinLists⟩

/-- Buffers join byte by byte. Memory is zero past its end, so the shorter one is lengthened with
zeros. -/
def Buffer.join (c : Cond) : Buffer → Buffer → Buffer
  | .known a, .known b =>
    if a = b then .known a else .symbolic (joinLists c a.lift b.lift)
  | a, b => .symbolic (joinLists c a.lift b.lift)

instance : Join Buffer := ⟨Buffer.join⟩

end SymbolicMachine
