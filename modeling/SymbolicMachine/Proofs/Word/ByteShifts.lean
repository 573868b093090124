import Mathlib
import SymbolicMachine.Proofs.Word.Reassembly

/-!
# Right shifts by whole bytes

A right shift by whole bytes moves the window of a word to the right: zeros come in, and the last
bytes are lost (`Padded.moved`). The word that is left is the moved window put together, whichever
way the shift is done (`Word.alike_shiftRight`): on the window, on the number if the word is a
literal, or not at all if nothing of the word is left. Moves compose, and so do the shifts
(`Word.byte_shifts_compose`).
-/

namespace SymbolicMachine

theorem Bytes.lift_moved (bytes : Bytes) (n : Nat) :
    lift (Padded.moved 0 bytes n) = Padded.moved (.lit 0) bytes.lift n :=
  Padded.map_moved 0 bytes (fun b : UInt8 => Term.nat b.toNat) n

theorem Term.IsWindow.moved {window : List Term} (h : IsWindow window) (n : Nat) :
    IsWindow (Padded.moved (.lit 0) window n) where
  length := (Padded.length_moved _ window n).trans h.length
  literals := by
    intro v hv
    rw [Padded.moved_eq_append] at hv
    rcases List.mem_append.mp hv with hzero | hwindow
    · cases List.eq_of_mem_replicate hzero
      decide
    · exact h.literals v (List.mem_of_mem_take hwindow)

namespace Word

/-! ## The word that is left -/

variable {window : List Term} {n : Nat}

theorem term_lit (h : n < 2 ^ 256) : (lit n).term = .lit n := by
  have hlit : (lit n).Means (fun _ => none) True n := (means_lit n).congr (Nat.mod_eq_of_lt h)
  exact hlit.term.lit trivial

/-- Known bytes are shifted as a number. -/
theorem term_shiftRight_lift {bytes : Bytes} (hlen : bytes.length = 32) (h : 8 * n < 2 ^ 256) :
    ((ofBytes bytes.lift).shiftRight (lit (8 * n))).term =
      .lit (Bytes.value (Padded.moved 0 bytes n)) := by
  have hamount : (lit (8 * n)).Means (fun _ => none) True (8 * n) :=
    (means_lit _).congr (Nat.mod_eq_of_lt h)
  have hshift := holds_shiftRight (holds_ofBytes_lift hlen) hamount
  rw [shifted_eq_div (Bytes.value_lt_of_length_le hlen.le), pow_mul] at hshift
  rw [Bytes.value_moved]
  exact hshift.term.lit trivial

/-- A window that makes no literal is shifted as a window. -/
theorem shiftRight_of_le (hlen : window.length = 32) (hl : ¬ (ofBytes window).term.isLit)
    (hn : n ≤ 32) :
    (ofBytes window).shiftRight (lit (8 * n)) = ofBytes (Padded.moved (.lit 0) window n) := by
  have hshift : (ofBytes window).shiftWindow? (lit (8 * n)) =
      some (ofBytes (Padded.moved (.lit 0) window n)) :=
    shiftWindow?_eq_some_iff.mpr
      ⟨hl, n, window, hn, term_lit (by omega), window?_of_eq hlen, rfl⟩
  rw [shiftRight, hshift, Option.getD_some]

/-- Nothing is left of a word that is shifted by more than its bytes. -/
theorem term_shiftRight_of_lt (w : Word) (hn : 32 < n) (h : 8 * n < 2 ^ 256) :
    (w.shiftRight (lit (8 * n))).term = .lit 0 := by
  have hterm := term_lit h
  have hshift : w.shiftWindow? (lit (8 * n)) = none := by
    cases hs : w.shiftWindow? (lit (8 * n)) with
    | none => rfl
    | some r =>
      obtain ⟨-, m, -, hm, hamount, -⟩ := shiftWindow?_eq_some_iff.mp hs
      rw [hterm] at hamount
      have hmn : 8 * n = 8 * m := by exact_mod_cast Term.lit.inj hamount
      omega
  have hguard : (Cond.mkLt (.nat (8 * n)) .wordBits).Means (fun _ => none) True
      (decide (8 * n < 256)) := .lt_nat (.ofNat _) (.ofNat 256)
  rw [decide_eq_false (by omega)] at hguard
  rw [shiftRight, hshift, Option.getD_none, hterm, hguard.lit trivial]
  rfl

/-- **A shift by whole bytes leaves the moved window put together.** -/
theorem alike_shiftRight (h : Term.IsWindow window) (hn : 8 * n < 2 ^ 256) :
    ((ofBytes window).shiftRight (lit (8 * n))).Alike
      (ofBytes (Padded.moved (.lit 0) window n)) := by
  by_cases hl : (ofBytes window).term.isLit
  · obtain ⟨bytes, rfl, hlen⟩ := h.exists_lift hl
    refine .of_lit (term_shiftRight_lift hlen hn) ?_
    rw [← Bytes.lift_moved]
    exact Term.ofBytes_lift _
  · rcases Nat.lt_or_ge 32 n with hlt | hle
    · refine .of_lit (term_shiftRight_of_lt _ hlt hn) ?_
      rw [Padded.moved_of_length_le _ (h.length.trans_le hlt.le)]
      exact Term.ofBytes_zeros _
    · rw [shiftRight_of_le h.length hl hle]
      exact .rfl

/-- **Right shifts by whole bytes compose and stay on the window.** The word is put together from any
32 formulas with no literal among them that is not a byte. Shifted twice, it is the word shifted
once by the sum, with the same tag too unless it is a literal; the sum may pass the width. While the
word is no literal, a shift by at most its bytes puts zeros in front of its window and drops as many
bytes at the end, and that is the tag of the result, the window it is taken to be read from, and
what it is taken apart into. -/
theorem byte_shifts_compose (h : Term.IsWindow window) (m n : Nat) (hlt : 8 * (m + n) < 2 ^ 256) :
    let w := ofBytes window
    let moved := List.replicate m (.lit 0) ++ window.take (32 - m)
    ((w.shiftRight (lit (8 * m))).shiftRight (lit (8 * n))).Alike
      (w.shiftRight (lit (8 * (m + n)))) ∧
    (m ≤ 32 → ¬ w.term.isLit →
      (w.shiftRight (lit (8 * m))).origin = .bytes moved ∧
      moved.length = 32 ∧
      (w.shiftRight (lit (8 * m))).term = .ofBytes moved ∧
      (w.shiftRight (lit (8 * m))).window? = some moved ∧
      (w.shiftRight (lit (8 * m))).toBytes = moved) := by
  intro w moved
  have first := alike_shiftRight (n := m) h (by omega)
  have second := alike_shiftRight (n := n) (h.moved m) (by omega)
  have once := alike_shiftRight h hlt
  refine ⟨?_, fun hm hl => ?_⟩
  · rw [first.shiftRight_eq]
    rw [Padded.moved_moved] at second
    exact second.trans once.symm
  · have hmoved : Padded.moved (.lit 0) window m = moved := by
      rw [Padded.moved_of_le_length _ (h.length ▸ hm), h.length]
    have hwindow := hmoved ▸ h.moved m
    rw [shiftRight_of_le h.length hl hm, hmoved]
    exact ⟨rfl, hwindow.length, rfl, window?_of_eq hwindow.length,
      toBytes_ofBytes_of_isWindow hwindow⟩

/-- A known byte and an unknown one before zeros: a shift by 30 bytes leaves the two, and one more
leaves the known byte. -/
theorem byte_shifts_compose_to_literal :
    let window := Term.lit 222 :: .var "x" :: List.replicate 30 (.lit 0)
    let w := ofBytes window
    Term.IsWindow window ∧ 8 * (30 + 1) < 2 ^ 256 ∧ 30 ≤ 32 ∧ ¬ w.term.isLit ∧
      ((w.shiftRight (lit (8 * 30))).shiftRight (lit (8 * 1))).Alike
        (w.shiftRight (lit (8 * (30 + 1)))) ∧
      (w.shiftRight (lit (8 * 30))).toBytes =
        List.replicate 30 (.lit 0) ++ [.lit 222, .var "x"] := by
  intro window w
  have hwindow : Term.IsWindow window := by
    refine ⟨rfl, fun v hv => ?_⟩
    have hv' : v = 222 ∨ v = 0 := by simpa [window] using hv
    omega
  have hl : ¬ w.term.isLit := by
    rw [show w.term.isLit = window.all Term.isLit from Term.isLit_ofBytes window]
    simp [window, Term.isLit, Term.lit?]
  have hlt : 8 * (30 + 1) < 2 ^ 256 := by norm_num
  obtain ⟨htwice, hmoved⟩ := byte_shifts_compose hwindow 30 1 hlt
  obtain ⟨-, -, -, -, hbytes⟩ := hmoved (by norm_num) hl
  exact ⟨hwindow, hlt, by norm_num, hl, htwice, hbytes⟩

end Word

end SymbolicMachine
