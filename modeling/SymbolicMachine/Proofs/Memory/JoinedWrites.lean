import Mathlib
import SymbolicMachine.Proofs.TakenSide
import SymbolicMachine.Proofs.Memory.Refusal

/-!
# Joining memories before or after a write

A write puts the same bytes at the same places of both sides of a join. There the join has nothing
to choose, since equal formulas join to themselves, and everywhere else, past the ends of the two
memories too, it chooses as it did before. So it makes no difference whether a write is done before
memories are joined or after: `write_join`.
-/

namespace SymbolicMachine

theorem Term.joinLists_overwrite (c : Cond) (xs ys window : List Term) (start : Nat) :
    joinLists c (Padded.overwrite (lit 0) xs start window)
        (Padded.overwrite (lit 0) ys start window) =
      Padded.overwrite (lit 0) (joinLists c xs ys) start window := by
  apply Padded.ext (x := lit 0)
  · rw [length_joinLists, Padded.length_overwrite, Padded.length_overwrite,
      Padded.length_overwrite, length_joinLists]
    omega
  · intro i
    rw [get_joinLists, Padded.get_overwrite, Padded.get_overwrite, Padded.get_overwrite,
      get_joinLists]
    split_ifs
    · exact mkIte_self c _
    · rfl

/-- **A write commutes with a join.** Done to the two sides or to their join, a write is refused
with one fault everywhere or nowhere, and if it is accepted it leaves the same formula for every
byte, whatever the condition. -/
theorem write_join (c : Cond) (a b : Buffer) (W : Write) (h : W.InRange) :
    (∃ fault, W.run a = .error fault ∧ W.run b = .error fault ∧
      W.run (join c a b) = .error fault) ∨
    ∃ ra rb r, W.run a = .ok ra ∧ W.run b = .ok rb ∧ W.run (join c a b) = .ok r ∧
      r.lift = (join c ra rb).lift := by
  by_cases h0 : W.size = 0
  · exact .inr ⟨a, b, join c a b, W.run_of_size_eq_zero a h0, W.run_of_size_eq_zero b h0,
      W.run_of_size_eq_zero _ h0, rfl⟩
  · obtain ⟨ra, hra, hlifta⟩ := W.exists_written a h0
    obtain ⟨rb, hrb, hliftb⟩ := W.exists_written b h0
    obtain ⟨r, hr, hlift⟩ := W.exists_written (join c a b) h0
    rw [hra, hrb, hr]
    cases Buffer.checkWindow W.offset W.size with
    | error fault => exact .inl ⟨fault, rfl, rfl, rfl⟩
    | ok =>
      refine .inr ⟨ra, rb, r, rfl, rfl, rfl, ?_⟩
      have hjoin : (join c a b).lift = joinLists c a.lift b.lift := Buffer.lift_join c a b
      have hjoin' : (join c ra rb).lift = joinLists c ra.lift rb.lift := Buffer.lift_join c ra rb
      rw [hlift h, hjoin, hjoin', hlifta h, hliftb h, Term.joinLists_overwrite]

/-- A known word stored past the ends of known bytes and of unknown ones, under a condition that is
not decided. The join chooses in front of the word only; the last byte is the last one written. -/
theorem write_join_past_ends :
    let W := Write.word 5 (.lit 7)
    let a := Buffer.known [1]
    let b := Buffer.symbolic [.var "x", .var "y"]
    W.InRange ∧ ∃ ra rb r, W.run a = .ok ra ∧ W.run b = .ok rb ∧
      W.run (join (.named "c") a b) = .ok r ∧ r.lift = (join (.named "c") ra rb).lift ∧
      r.length = 37 ∧ r.readByte 1 = .ite (.named "c") (.lit 0) (.var "y") ∧
      r.readByte 36 = .lit 7 := by
  intro W a b
  have hW : W.InRange := fun v hv => by
    cases hv
    decide
  refine ⟨hW, ?_⟩
  rcases write_join (.named "c") a b W hW with ⟨fault, hfault, -⟩ | ⟨ra, rb, r, hra, hrb, hr, hlift⟩
  · cases hfault
  · refine ⟨ra, rb, r, hra, hrb, hr, hlift, ?_⟩
    cases hr
    exact ⟨rfl, rfl, rfl⟩

end SymbolicMachine
