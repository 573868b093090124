import Mathlib
import SymbolicMachine.Proofs.Memory.Access

/-!
# Writes put exactly their window in place

Whether a write is accepted depends on nothing but its window (`checkWindow_eq_ok_iff`). What it
leaves is the old list of byte formulas with the window in place, and by `Padded.get_overwrite` this
says what is read at every place, near or far. Main results: a copy is the part of the source,
filled up with zeros, and nothing else changes (`writeRange_exact`); a stored word reads back, byte
by byte and as a whole (`writeWord_exact`).
-/

namespace SymbolicMachine

namespace Buffer

variable {b source r : Buffer} {offset start size : Nat}

theorem checkWindow_eq_ok_iff : checkWindow offset size = .ok () ↔ offset + size ≤ 2 ^ 32 := by
  have hindex : indexLimit = 2 ^ 64 := Nat.one_shiftLeft 64
  have hmemory : memoryLimit = 2 ^ 32 := Nat.one_shiftLeft 32
  unfold checkWindow
  rw [hindex, hmemory]
  split_ifs <;> simp <;> omega

/-! ## Copies -/

/-- All that a copy of something can do, if it is accepted. -/
theorem writeRange_eq_ok_iff (h : size ≠ 0) :
    b.writeRange offset source start size = .ok r ↔
      offset + size ≤ 2 ^ 32 ∧ r = b.overwrite offset (source.slice start size) := by
  rw [writeRange, if_neg h, ← checkWindow_eq_ok_iff]
  cases checkWindow offset size with
  | ok =>
    constructor
    · intro hr
      exact ⟨rfl, (Except.ok.inj hr).symm⟩
    · rintro ⟨-, rfl⟩
      rfl
  | error e =>
    constructor
    · intro hr
      cases hr
    · rintro ⟨h, -⟩
      cases h

theorem writeRange_zero : b.writeRange offset source start 0 = .ok b := rfl

theorem exists_writeRange_iff :
    (∃ r, b.writeRange offset source start size = .ok r) ↔ size = 0 ∨ offset + size ≤ 2 ^ 32 := by
  by_cases h : size = 0
  · subst h
    exact ⟨fun _ => .inl rfl, fun _ => ⟨b, writeRange_zero⟩⟩
  · constructor
    · rintro ⟨r, hr⟩
      exact .inr ((writeRange_eq_ok_iff h).mp hr).1
    · rintro (h0 | hle)
      · exact absurd h0 h
      · exact ⟨_, (writeRange_eq_ok_iff h).mpr ⟨hle, rfl⟩⟩

theorem length_overwrite :
    (b.overwrite offset source).length = max b.length (offset + source.length) := by
  rw [← length_lift, lift_overwrite, Padded.length_overwrite, length_lift, length_lift]

theorem length_slice : (b.slice start size).length = size := by
  rw [← length_lift, lift_slice, Padded.length_slice]

theorem readByte_overwrite (p : Nat) :
    (b.overwrite offset source).readByte p =
      if offset ≤ p ∧ p < offset + source.length then source.readByte (p - offset)
      else b.readByte p := by
  rw [readByte_eq, lift_overwrite, Padded.get_overwrite, length_lift, readByte_eq, readByte_eq]

theorem readByte_slice (p : Nat) :
    (b.slice start size).readByte p = if p < size then b.readByte (start + p) else .lit 0 := by
  rw [readByte_eq, lift_slice, Padded.get_slice, readByte_eq]

theorem readByte_of_le {p : Nat} (h : b.length ≤ p) : b.readByte p = .lit 0 := by
  rw [readByte_eq, Padded.get_of_le]
  rwa [length_lift]

theorem lift_overwrite_eq_append :
    (b.overwrite offset source).lift =
      (b.slice 0 offset).lift ++ source.lift ++ (b.drop (offset + source.length)).lift := by
  rw [lift_overwrite, Padded.overwrite_eq_append, lift_slice, lift_drop, length_lift]

theorem isSome_known?_overwrite :
    (b.overwrite offset source).known?.isSome ↔ b.known?.isSome ∧ source.known?.isSome := by
  cases b <;> cases source <;> simp [overwrite, known?]

theorem isSome_known?_slice : (b.slice start size).known?.isSome ↔ b.known?.isSome := by
  cases b <;> simp [slice, known?]

/-- **A copy is exact and filled up with zeros.** It is accepted if it copies nothing or its window
ends inside the memory. A copy of nothing changes nothing. Any other puts the given part of the
source in place, with zeros for what lies past the end of the source, and leaves all else as it is;
source and destination may be one buffer. -/
theorem writeRange_exact (b source : Buffer) (offset start size : Nat) :
    ((∃ r, b.writeRange offset source start size = .ok r) ↔
      size = 0 ∨ offset + size ≤ 2 ^ 32) ∧
    ∀ r, b.writeRange offset source start size = .ok r →
      (size = 0 → r = b) ∧
      (size ≠ 0 →
        r.length = max b.length (offset + size) ∧
        (∀ p, r.readByte p =
          if offset ≤ p ∧ p < offset + size then source.readByte (start + p - offset)
          else b.readByte p) ∧
        (∀ p, offset ≤ p → p < offset + size → source.length ≤ start + p - offset →
          r.readByte p = .lit 0) ∧
        r.lift = (b.slice 0 offset).lift ++ (source.slice start size).lift ++
          (b.drop (offset + size)).lift ∧
        (r.known?.isSome ↔ b.known?.isSome ∧ source.known?.isSome)) := by
  refine ⟨exists_writeRange_iff, fun r hr => ⟨?_, fun hsize => ?_⟩⟩
  · rintro rfl
    exact (Except.ok.inj hr).symm
  · obtain ⟨-, rfl⟩ := (writeRange_eq_ok_iff hsize).mp hr
    have hwindow : (source.slice start size).length = size := length_slice
    have hread : ∀ p, (b.overwrite offset (source.slice start size)).readByte p =
        if offset ≤ p ∧ p < offset + size then source.readByte (start + p - offset)
        else b.readByte p := by
      intro p
      rw [readByte_overwrite, hwindow]
      split
      · rw [readByte_slice, if_pos (by omega), Nat.add_sub_assoc (by omega)]
      · rfl
    refine ⟨?_, hread, fun p hlow hhigh hend => ?_, ?_, ?_⟩
    · rw [length_overwrite, hwindow]
    · rw [hread, if_pos ⟨hlow, hhigh⟩, readByte_of_le hend]
    · rw [lift_overwrite_eq_append, hwindow]
    · rw [isSome_known?_overwrite, isSome_known?_slice]

/-- Three unknown bytes copied over themselves, one place further and past their end. -/
theorem writeRange_exact_on_overlap :
    let b := symbolic [.var "x", .var "y", .var "z"]
    let r := symbolic [.var "x", .var "x", .var "y", .var "z", .lit 0]
    b.writeRange 1 b 0 4 = .ok r ∧ 4 ≠ 0 ∧ r.length = max b.length (1 + 4) ∧
      ∀ p, r.readByte p = if 1 ≤ p ∧ p < 1 + 4 then b.readByte (0 + p - 1) else b.readByte p := by
  intro b r
  have hr : b.writeRange 1 b 0 4 = .ok r := rfl
  obtain ⟨hlength, hread, -⟩ := ((writeRange_exact b b 1 0 4).2 r hr).2 (by decide)
  exact ⟨hr, by decide, hlength, hread⟩

/-! ## Stores -/

variable {ρ : Assignment} {known : Prop} {w : Word} {n : Nat}

/-- The bytes of a word as a buffer. -/
theorem lift_ofWord (hw : w.Means ρ known n) : (ofWord w).lift = w.toBytes := by
  rw [ofWord]
  cases hm : w.natLit? with
  | some m =>
    have hmn := Term.eq_of_natLit? hm hw.term.eval
    rw [Word.toBytes_lit (Term.natLit?_eq_some.mp hm) (hmn ▸ hw.lt)]
    rfl
  | none => rfl

/-- A store is accepted if its window ends inside the memory, and puts the bytes of the word in
place in either form. -/
theorem exists_writeWord (hw : w.Holds ρ known n) (h : offset + 32 ≤ 2 ^ 32) :
    ∃ r, b.writeWord offset w = .ok r ∧
      r.lift = Padded.overwrite (.lit 0) b.lift offset w.toBytes := by
  unfold writeWord
  split
  · rename_i bytes m hm
    have hmn := Term.eq_of_natLit? hm hw.term.eval
    refine ⟨.known (bytes.writeWord offset m), ?_, ?_⟩
    · rw [wordBytes, checkWindow_eq_ok_iff.mpr h]
      rfl
    · rw [Word.toBytes_lit (Term.natLit?_eq_some.mp hm) (hmn ▸ hw.lt)]
      exact lift_overwrite (.known bytes) (.known (.ofWord m)) offset
  · refine ⟨_, (writeRange_eq_ok_iff (by decide)).mpr ⟨h, rfl⟩, ?_⟩
    rw [lift_overwrite, lift_slice, lift, wordBytes, Padded.slice_eq_self _ _ hw.length_toBytes]

/-- The word at a place where the bytes of a word lie. -/
theorem readWord_of_slice (hw : w.Holds ρ known n)
    (h : Padded.slice (.lit 0) b.lift offset 32 = w.toBytes) :
    (b.readWord offset).Means ρ known n := by
  refine ⟨?_, hw.lt⟩
  rw [readWord, term_readField b offset (by decide), wordBytes, h]
  exact hw.ofBytes_toBytes.term

/-- The byte at a place where a byte of a word lies. -/
theorem means_get_toBytes (hw : w.Holds ρ known n) {i : Nat} (hi : i < 32) :
    (Padded.get (.lit 0) w.toBytes i).Means ρ known ((n / 256 ^ (31 - i) % 256 : Nat) : Int) := by
  have hzero : (Term.lit 0).Means ρ known ((0 : UInt8).toNat : Int) := .ofLit 0
  rw [← Bytes.toNat_get_ofWord n hi]
  exact Padded.rel_get hw.toBytes hzero i

/-- **A stored word reads back, and nothing else changes.** A word with any formula and any tag has
a machine word as its value, and bytes as the values of the elements of a window that it was read
from. Its store at an offset where it fits is accepted. The word and each of its bytes are then read
with the values that they have, and every other place has the very formula it had. These bytes are
the ones that the word hands out and that make it a buffer. -/
theorem writeWord_exact (b : Buffer) (hw : w.Denotes ρ n) (tagged : w.ByteTagged ρ)
    (h : offset + 32 ≤ 2 ^ 32) :
    (∃ r, b.writeWord offset w = .ok r ∧
      r.length = max b.length (offset + 32) ∧
      (r.readWord offset).Denotes ρ n ∧
      (∀ i < 32, (r.readByte (offset + i)).compute ρ =
        some ((n / 256 ^ (31 - i) % 256 : Nat) : Int)) ∧
      (∀ p, p < offset ∨ offset + 32 ≤ p → r.readByte p = b.readByte p) ∧
      w.toBytes = (List.range 32).map fun i => r.readByte (offset + i)) ∧
    w.toBytes.length = 32 ∧
    (ofWord w).lift = w.toBytes ∧
    ((ofWord w).readWord 0).Denotes ρ n := by
  have hold : w.Holds ρ False n := ⟨hw.means False.elim, tagged⟩
  have hlen := hold.length_toBytes
  have hofWord := lift_ofWord hold.toMeans
  obtain ⟨r, hr, hlift⟩ := exists_writeWord (b := b) hold h
  have hslice : Padded.slice (.lit 0) r.lift offset 32 = w.toBytes := by
    rw [hlift, Padded.slice_overwrite_self _ _ _ hlen]
  refine ⟨⟨r, hr, ?_, (readWord_of_slice hold hslice).denotes, fun i hi => ?_, fun p hp => ?_, ?_⟩,
    hlen, hofWord, (readWord_of_slice hold ?_).denotes⟩
  · rw [← length_lift, hlift, Padded.length_overwrite, length_lift, hlen]
  · rw [readByte_eq, hlift, Padded.get_overwrite, hlen, if_pos (by omega), Nat.add_sub_cancel_left,
      Term.compute_eq_eval]
    exact (means_get_toBytes hold hi).eval
  · rw [readByte_eq, hlift, Padded.get_overwrite, hlen, if_neg (by omega), readByte_eq]
  · rw [← hslice, Padded.slice_eq_map]
    simp only [readByte_eq]
  · rw [hofWord, Padded.slice_eq_self _ _ hlen]

/-- A word with an unknown byte at its top, stored into two known bytes at the last place where it
fits. -/
theorem writeWord_exact_at_limit :
    let w := Word.ofBytes (Term.var "first" :: List.replicate 31 (.lit 0))
    w.Denotes (fun _ => some 255) (255 * 256 ^ 31) ∧ w.ByteTagged (fun _ => some 255) ∧
      2 ^ 32 - 32 + 32 ≤ 2 ^ 32 ∧
      ∃ r, (Buffer.known [1, 2]).writeWord (2 ^ 32 - 32) w = .ok r ∧ r.length = 2 ^ 32 ∧
        (r.readWord (2 ^ 32 - 32)).Denotes (fun _ => some 255) (255 * 256 ^ 31) ∧
        r.readByte 1 = .lit 2 := by
  intro w
  have hbytes : Term.MeansBytes (fun _ => some 255) False
      (Term.var "first" :: List.replicate 31 (.lit 0)) (255 :: List.replicate 31 0) :=
    .cons ⟨rfl, False.elim⟩ (Term.MeansBytes.zeros 31)
  have hvalue : Bytes.value (255 :: List.replicate 31 0) = 255 * 256 ^ 31 := by
    rw [Bytes.value_cons, Bytes.value_replicate_zero]
    rfl
  have hw : w.Holds (fun _ => some 255) False (255 * 256 ^ 31) :=
    hvalue ▸ Word.holds_ofBytes hbytes (by rw [hvalue]; norm_num)
  have hfits : 2 ^ 32 - 32 + 32 ≤ 2 ^ 32 := by norm_num
  obtain ⟨⟨r, hr, hlength, hread, -, hframe, -⟩, -⟩ :=
    writeWord_exact (.known [1, 2]) hw.denotes hw.tagged hfits
  refine ⟨hw.denotes, hw.tagged, hfits, r, hr, ?_, hread, ?_⟩
  · rw [hlength]
    norm_num [length]
  · rw [hframe 1 (.inl (by norm_num))]
    rfl

end Buffer

end SymbolicMachine
