import Mathlib
import SymbolicMachine.Proofs.Memory.Refusal
import SymbolicMachine.Proofs.Word.ByteShifts

/-!
# Words read from memory keep their bytes

A word read from memory is the window of 32 formulas at its place put together, and its tag is that
window unless it is a literal, in either form of memory (`Buffer.alike_readField`). So it can be
taken apart into the same formulas, without anybody asking for their values: a word that is read and
stored again is a copy of its bytes (`writeWord_readWord`), and the field that selects an entry
point is the word at its place, shifted (`readSelector_eq_shifted`).
-/

namespace SymbolicMachine

namespace Padded

variable {α : Type} (zero : α) (xs : List α)

theorem take_slice (start : Nat) {n size : Nat} (h : n ≤ size) :
    (slice zero xs start size).take n = slice zero xs start n := by
  rw [slice_eq_map, slice_eq_map, ← List.map_take, List.take_range, min_eq_left h]

end Padded

namespace Term

variable {terms : List Term}

/-- What follows the end of memory are bytes too. -/
theorem LiteralBytes.isWindow_slice (h : LiteralBytes terms) (start : Nat) :
    IsWindow (Padded.slice (.lit 0) terms start 32) where
  length := Padded.length_slice ..
  literals := by
    intro v hv
    rw [Padded.slice_eq_map] at hv
    obtain ⟨j, -, hj⟩ := List.mem_map.mp hv
    rcases Nat.lt_or_ge (start + j) terms.length with hlt | hle
    · rw [Padded.get, List.getD_eq_getElem _ _ hlt] at hj
      exact h v (hj ▸ List.getElem_mem hlt)
    · rw [Padded.get_of_le _ hle] at hj
      cases hj
      decide

/-- A window that makes a literal makes a machine word. -/
theorem IsWindow.lt_of_ofBytes_eq_lit {window : List Term} {v : Int} (h : IsWindow window)
    (hv : ofBytes window = .lit v) : 0 ≤ v ∧ v < 2 ^ 256 := by
  obtain ⟨bytes, rfl, hlen⟩ := h.exists_lift (isLit_iff.mpr ⟨v, hv⟩)
  rw [ofBytes_lift] at hv
  cases hv
  exact ⟨Int.natCast_nonneg _, by exact_mod_cast Bytes.value_lt_of_length_le hlen.le⟩

end Term

namespace Buffer

variable {b : Buffer}

/-- The literals among the formulas of a memory are bytes. Known bytes are bytes anyway. -/
def LiteralBytes : Buffer → Prop
  | known _ => True
  | symbolic terms => Term.LiteralBytes terms

theorem LiteralBytes.lift (h : b.LiteralBytes) : Term.LiteralBytes b.lift := by
  cases b with
  | known bytes => exact Term.literalBytes_lift bytes
  | symbolic _ => exact h

/-- Known bytes give a literal, and formulas a word with their tag. -/
theorem alike_readField (b : Buffer) (offset : Nat) {width : Nat} (hw : width ≤ 32) :
    (b.readField offset width).Alike (.ofBytes (Padded.slice (.lit 0) b.lift offset width)) := by
  cases b with
  | symbolic terms => exact .rfl
  | known bytes =>
    refine ⟨term_readField _ offset hw, fun hl => absurd ?_ hl⟩
    rw [term_readField _ offset hw, ← lift_slice]
    exact Term.isLit_iff.mpr ⟨_, Term.ofBytes_lift _⟩

theorem toBytes_readWord (h : b.LiteralBytes) (offset : Nat) :
    (b.readWord offset).toBytes = (b.slice offset 32).lift := by
  rw [readWord, wordBytes, (b.alike_readField offset le_rfl).toBytes_eq,
    Word.toBytes_ofBytes_of_isWindow (h.lift.isWindow_slice offset), lift_slice]

end Buffer

/-! ## Storing what has been read -/

/-- Writes that put the same bytes in the same place are refused alike, or leave the same formulas,
whatever kinds of writes they are. -/
theorem Write.outcome_of_window_eq (W W' : Write) (b : Buffer) (hsize : W.size ≠ 0)
    (hwindow : W.offset = W'.offset ∧ W.size = W'.size ∧ W.window = W'.window)
    (hW : W.InRange) (hW' : W'.InRange) :
    Outcome (fun r r' => r.length = r'.length ∧ r.lift = r'.lift) (W.run b) (W'.run b) := by
  obtain ⟨hoffset, hsizes, hbytes⟩ := hwindow
  obtain ⟨r, hr, hlift⟩ := W.exists_written b hsize
  obtain ⟨r', hr', hlift'⟩ := W'.exists_written b (hsizes ▸ hsize)
  have hsame : r.lift = r'.lift := by rw [hlift hW, hlift' hW', hoffset, hbytes]
  rw [hr, hr', hoffset, hsizes]
  cases Buffer.checkWindow W'.offset W'.size with
  | error fault => exact .error fault
  | ok => exact .ok ⟨by rw [← Buffer.length_lift, hsame, Buffer.length_lift], hsame⟩

/-- **A word that is read and stored again is a copy of its 32 bytes.** This is so for memory in any
forms, in which no literal is anything but a byte, and for any two places. The store and the copy
are refused with the same fault, or they leave the same formula for every byte. For any window, the
word put together from it is taken apart into it again. -/
theorem writeWord_readWord (dst src : Buffer) (offset start : Nat)
    (h : src.LiteralBytes) :
    Outcome (fun r r' => r.length = r'.length ∧ r.lift = r'.lift)
      (dst.writeWord offset (src.readWord start)) (dst.writeRange offset src start 32) ∧
    ∀ window, Term.IsWindow window → (Word.ofBytes window).toBytes = window := by
  refine ⟨?_, fun window hwindow => Word.toBytes_ofBytes_of_isWindow hwindow⟩
  have hstored : (Write.word offset (src.readWord start)).window = (src.slice start 32).lift := by
    have hlen : (src.readWord start).toBytes.length = 32 := by
      rw [Buffer.toBytes_readWord h, Buffer.length_lift, Buffer.length_slice]
    rw [← Buffer.toBytes_readWord h]
    exact Padded.slice_eq_self _ _ hlen
  have hrange : (Write.word offset (src.readWord start)).InRange := by
    intro v hv
    apply (h.lift.isWindow_slice start).lt_of_ofBytes_eq_lit
    rw [← hv, Buffer.readWord, wordBytes, Buffer.term_readField _ _ le_rfl]
  exact Write.outcome_of_window_eq (.word offset (src.readWord start)) (.range offset src start 32)
    dst (by norm_num [Write.size, wordBytes]) ⟨rfl, rfl, hstored⟩ hrange trivial

/-- A word that begins with an unknown byte and goes on past the end of its memory, stored into
known bytes: they keep the first of them, and zeros follow the unknown byte. -/
theorem writeWord_readWord_past_end :
    let src := Buffer.symbolic [.lit 255, .var "x"]
    let dst := Buffer.known [1, 2]
    src.LiteralBytes ∧ ∃ r r', dst.writeWord 1 (src.readWord 1) = .ok r ∧
      dst.writeRange 1 src 1 32 = .ok r' ∧ r.length = r'.length ∧ r.lift = r'.lift ∧
      r.lift = .lit 1 :: .var "x" :: List.replicate 31 (.lit 0) := by
  intro src dst
  have hsrc : src.LiteralBytes := by
    intro v hv
    have hv' : v = 255 := by simpa using hv
    omega
  obtain ⟨r', hr'⟩ : ∃ r', dst.writeRange 1 src 1 32 = .ok r' :=
    Buffer.exists_writeRange_iff.mpr (.inr (by norm_num))
  have hcopied : r'.lift = .lit 1 :: .var "x" :: List.replicate 31 (.lit 0) := by
    cases hr'
    rfl
  have hsame := (writeWord_readWord dst src 1 1 hsrc).1
  rw [hr'] at hsame
  obtain ⟨r, hr, hlength, hlift⟩ := hsame.exists_ok
  exact ⟨hsrc, r, r', hr, hr', hlength, hlift, hlift.trans hcopied⟩

/-! ## The field in front of a word -/

/-- **The selecting field is the word at its place, shifted right by 28 bytes,** as a formula, in
either form of memory, as long as no literal in it is anything but a byte. It is a literal if and
only if the four bytes at its place are, whatever follows them. -/
theorem readSelector_eq_shifted (b : Buffer) (offset : Nat) (h : b.LiteralBytes) :
    (b.readSelector offset).term = ((b.readWord offset).shiftRight (.lit 224)).term ∧
    ((b.readSelector offset).term.isLit ↔ ∀ i < 4, (b.readByte (offset + i)).isLit) := by
  have hfield : (b.readSelector offset).term = .ofBytes (Padded.slice (.lit 0) b.lift offset 4) :=
    Buffer.term_readField b offset (by decide)
  constructor
  · have hword := Buffer.alike_readField b offset (le_refl 32)
    have hshift := Word.alike_shiftRight (n := 28) (h.lift.isWindow_slice offset) (by norm_num)
    have hmoved : Padded.moved (.lit 0) (Padded.slice (.lit 0) b.lift offset 32) 28 =
        List.replicate 28 (.lit 0) ++ Padded.slice (.lit 0) b.lift offset 4 := by
      rw [Padded.moved_eq_append, Padded.length_slice, Padded.take_slice _ _ _ (by norm_num)]
      rfl
    rw [hmoved] at hshift
    rw [hfield, Buffer.readWord, wordBytes, hword.shiftRight_eq, hshift.1, Word.ofBytes,
      Term.ofBytes_zeros_append]
  · rw [hfield, Term.isLit_ofBytes, Padded.slice_eq_map]
    simp [Buffer.readByte_eq]

/-- Four known bytes before an unknown one. -/
theorem readSelector_eq_shifted_of_known :
    let b := Buffer.symbolic [.lit 0xa9, .lit 0x05, .lit 0x9c, .lit 0xbb, .var "x"]
    b.LiteralBytes ∧
      (b.readSelector 0).term = ((b.readWord 0).shiftRight (.lit 224)).term ∧
      (b.readSelector 0).term.isLit ∧
      ((b.readWord 0).shiftRight (.lit 224)).term = .lit 0xa9059cbb := by
  intro b
  have hb : b.LiteralBytes := by
    intro v hv
    have hv' : v = 0xa9 ∨ v = 0x05 ∨ v = 0x9c ∨ v = 0xbb := by simpa using hv
    omega
  obtain ⟨hterm, hlit⟩ := readSelector_eq_shifted b 0 hb
  refine ⟨hb, hterm, hlit.mpr fun i hi => ?_, hterm.symm.trans rfl⟩
  interval_cases i <;> rfl

end SymbolicMachine
