import Mathlib
import SymbolicMachine.Word.Bitwise
import SymbolicMachine.Proofs.Memory.Refusal
import SymbolicMachine.Proofs.Word.Shifts

/-!
# A word stored byte by byte

The bytes of a word can be extracted one by one and stored at their places, in any order. A store of
a byte changes one place and lengthens the memory up to it (`exists_writeByte`), so a run of such
stores changes the places that it comes to, and no others (`exists_storeBytes`), whatever form the
memory takes on between them. Once it has come to all 32 places, the memory is as long as after a
store of the word, and each byte in it has the value that it has then (`writeWord_eq_byte_stores`).
-/

namespace SymbolicMachine.Buffer

variable {ρ : Assignment} {b : Buffer} {w : Word} {offset n : Nat} {order : List Nat}

/-- Stores bytes of a word one by one, each at its place from an offset on. The order says which
bytes these are, counted from the most significant end. -/
def storeBytes (w : Word) (offset : Nat) (order : List Nat) (b : Buffer) : Except Fault Buffer :=
  order.foldlM (fun b i => b.writeByte (offset + i) (w.byte (.lit i))) b

/-- One store: the memory reaches the place of the byte, and nothing else changes. -/
theorem exists_writeByte (b : Buffer) (w : Word) (h : offset < 2 ^ 32) :
    ∃ r, b.writeByte offset w = .ok r ∧ (∀ n, r.length ≤ n ↔ b.length ≤ n ∧ offset < n) ∧
      ∀ p, r.readByte p = if p = offset then w.lowByte else b.readByte p := by
  obtain ⟨r, hr, hlift⟩ := (Write.byte offset w).exists_written b one_ne_zero
  have hwindow : (Write.byte offset w).window = [w.lowByte] := Padded.slice_eq_self _ _ rfl
  have hbytes : r.lift = Padded.overwrite (.lit 0) b.lift offset [w.lowByte] :=
    hwindow ▸ hlift trivial
  have hfits : checkWindow (Write.byte offset w).offset (Write.byte offset w).size = .ok () :=
    checkWindow_eq_ok_iff.mpr h
  refine ⟨r, ?_, fun n => ?_, fun p => ?_⟩
  · rw [hfits] at hr
    exact hr
  · rw [← length_lift, hbytes, Padded.length_overwrite, length_lift, List.length_singleton,
      max_le_iff, Nat.succ_le_iff]
  · rw [readByte_eq, hbytes, Padded.get_overwrite, List.length_singleton, readByte_eq]
    by_cases hp : p = offset
    · rw [if_pos (by omega), if_pos hp, hp, Nat.sub_self]
      rfl
    · rw [if_neg (by omega), if_neg hp]

/-- A run of stores: every byte that the order names is at its place, and nothing else has changed.
A byte may be named more than once. -/
theorem exists_storeBytes (w : Word) (h : ∀ i ∈ order, offset + i < 2 ^ 32) (b : Buffer) :
    ∃ r, storeBytes w offset order b = .ok r ∧
      (∀ n, r.length ≤ n ↔ b.length ≤ n ∧ ∀ i ∈ order, offset + i < n) ∧
      ∀ p, r.readByte p =
        if offset ≤ p ∧ p - offset ∈ order then (w.byte (.lit (p - offset))).lowByte
        else b.readByte p := by
  induction order generalizing b with
  | nil => exact ⟨b, rfl, by simp, by simp⟩
  | cons i order ih =>
    obtain ⟨first, hfirst, hlen, hread⟩ :=
      b.exists_writeByte (w.byte (.lit i)) (h i List.mem_cons_self)
    obtain ⟨r, hr, hlen', hread'⟩ := ih (fun j hj => h j (List.mem_cons_of_mem i hj)) first
    refine ⟨r, ?_, fun n => ?_, fun p => ?_⟩
    · rw [storeBytes, List.foldlM_cons, hfirst]
      exact hr
    · rw [hlen', hlen, List.forall_mem_cons, and_assoc]
    · rw [hread', hread]
      by_cases hp : p = offset + i
      · -- the byte stored here is the one that any later store here would leave
        have hi : p - offset = i := by omega
        rw [if_pos hp, hi, ite_self, if_pos ⟨by omega, List.mem_cons_self⟩]
      · have hmem : offset ≤ p ∧ p - offset ∈ order ↔ offset ≤ p ∧ p - offset ∈ i :: order := by
          rw [List.mem_cons]
          have hi : offset ≤ p → p - offset ≠ i := by omega
          tauto
        rw [if_neg hp, if_congr hmem rfl rfl]

/-- The byte at an index, as it is stored. -/
theorem means_lowByte_byte (hw : w.Means ρ False n) {i : Nat} (hi : i < 32) :
    (w.byte (.lit i)).lowByte.Means ρ False ((n / 256 ^ (31 - i) % 256 : Nat) : Int) := by
  have hindex : (Word.lit i).Means ρ False i :=
    (Word.means_lit i).congr (Nat.mod_eq_of_lt (hi.trans (by norm_num)))
  have hbyte := Word.means_byte hw hindex
  rw [if_pos (Nat.le_of_lt_succ hi)] at hbyte
  exact (Term.means_lowByte hbyte.term).congr (by rw [Nat.mod_mod])

/-- **A word is stored by storing its 32 bytes, in any order.** The memory may have either form and
hold any formulas. The word has a machine word as its value, and bytes as the values of the elements
of a window that it was read from. Where the word fits, all stores are accepted. Afterwards both
memories have the same length, all their bytes have the same values, those of the word are its
digits, and every other place has the very formula it had. -/
theorem writeWord_eq_byte_stores (b : Buffer) (hw : w.Denotes ρ n) (tagged : w.ByteTagged ρ)
    (h : offset + 32 ≤ 2 ^ 32) (horder : order.Perm (List.range 32)) :
    ∃ r r', storeBytes w offset order b = .ok r ∧ b.writeWord offset w = .ok r' ∧
      r.length = r'.length ∧
      (∀ p, (r.readByte p).compute ρ = (r'.readByte p).compute ρ) ∧
      (∀ i < 32, (r.readByte (offset + i)).compute ρ =
        some ((n / 256 ^ (31 - i) % 256 : Nat) : Int)) ∧
      ∀ p, p < offset ∨ offset + 32 ≤ p → r.readByte p = b.readByte p := by
  have hmem : ∀ i, i ∈ order ↔ i < 32 := fun i => by rw [horder.mem_iff, List.mem_range]
  obtain ⟨r, hr, hlen, hread⟩ := exists_storeBytes w
    (fun i hi => by have := (hmem i).mp hi; omega : ∀ i ∈ order, offset + i < 2 ^ 32) b
  obtain ⟨⟨r', hr', hlen', -, hbytes', hframe', -⟩, -⟩ := writeWord_exact b hw tagged h
  have hbytes : ∀ i < 32, (r.readByte (offset + i)).compute ρ =
      some ((n / 256 ^ (31 - i) % 256 : Nat) : Int) := by
    intro i hi
    rw [hread, Nat.add_sub_cancel_left, if_pos ⟨Nat.le_add_right _ _, (hmem i).mpr hi⟩]
    exact (means_lowByte_byte (hw.means False.elim) hi).compute
  have hframe : ∀ p, p < offset ∨ offset + 32 ≤ p → r.readByte p = b.readByte p := by
    intro p hp
    have hout : ¬ (offset ≤ p ∧ p - offset ∈ order) := by
      rw [hmem]
      omega
    rw [hread, if_neg hout]
  refine ⟨r, r', hr, hr', ?_, fun p => ?_, hbytes, hframe⟩
  · apply eq_of_forall_ge_iff
    intro m
    rw [hlen, hlen', max_le_iff]
    refine and_congr_right fun _ => ⟨fun hall => ?_, fun hle i hi => ?_⟩
    · exact hall 31 ((hmem 31).mpr (by norm_num))
    · have := (hmem i).mp hi
      omega
  · by_cases hp : offset ≤ p ∧ p < offset + 32
    · obtain ⟨i, rfl⟩ := Nat.exists_eq_add_of_le hp.1
      rw [hbytes i (by omega), hbytes' i (by omega)]
    · rw [hframe p (by omega), hframe' p (by omega)]

/-- An unknown word stored into known bytes, the last byte first. -/
theorem writeWord_eq_byte_stores_backwards :
    let ρ : Assignment := fun _ => some 0x1234
    let w := Word.named "x"
    let b := Buffer.known [1, 2, 3]
    let order := (List.range 32).reverse
    w.Denotes ρ 0x1234 ∧ w.ByteTagged ρ ∧ 2 + 32 ≤ 2 ^ 32 ∧ order.Perm (List.range 32) ∧
      ∃ r r', storeBytes w 2 order b = .ok r ∧ b.writeWord 2 w = .ok r' ∧ r.length = r'.length ∧
        (∀ p, (r.readByte p).compute ρ = (r'.readByte p).compute ρ) ∧
        (r.readByte 33).compute ρ = some 0x34 ∧ r.readByte 1 = .lit 2 := by
  intro ρ w b order
  have hw : w.Denotes ρ 0x1234 := ⟨Term.compute_eq_eval _, by norm_num⟩
  have tagged : w.ByteTagged ρ := fun _ hwindow => nomatch hwindow
  have horder : order.Perm (List.range 32) := List.reverse_perm _
  obtain ⟨r, r', hr, hr', hlen, hsame, hbytes, hframe⟩ :=
    writeWord_eq_byte_stores b hw tagged (by norm_num : 2 + 32 ≤ 2 ^ 32) horder
  refine ⟨hw, tagged, by norm_num, horder, r, r', hr, hr', hlen, hsame, ?_, ?_⟩
  · exact hbytes 31 (by norm_num)
  · exact hframe 1 (.inl (by norm_num))

end SymbolicMachine.Buffer
