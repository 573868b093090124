import Mathlib
import SymbolicMachine.Proofs.Digits
import SymbolicMachine.Proofs.Memory.Host
import SymbolicMachine.Proofs.Memory.Refusal

/-!
# Writes keep to the indices of the host

The writes once more, in the way the host does them: with its indices and its lists, and `none`
where it stops. Nothing but the check of the window keeps a write from stopping, and that is enough.
Whatever the write and its destination are, the host, if it has room for its lists, gets to the end
and has what `Write.run` gives (`Write.exists_run?`). Main result: `Write.refused_iff_past_memory`.
-/

namespace SymbolicMachine

open Host

/-! ## Known bytes -/

namespace Bytes

variable {bytes source window : Bytes} {n offset start size : Nat}

def slice? (bytes : Bytes) (offset size : Nat) : Option Bytes :=
  let start := min offset bytes.length
  let stop := min (saturatingAdd offset size) bytes.length
  cut? 0 bytes start stop size

def writeRange? (bytes : Bytes) (offset : Nat) (source : Bytes) (start size : Nat) :
    Option Bytes :=
  if size = 0 then some bytes
  else do
    let stop ← add? offset size
    let window ← source.slice? start size
    copy? (grow 0 bytes stop) offset stop window

/-- Copies `count` bytes of a source from a place on, which need not be an index. -/
def copyFrom? (bytes source : Bytes) (place start count : Nat) : Option Bytes :=
  match index? place with
  | some place => bytes.writeRange? start source place count
  | none => bytes.writeRange? start [] 0 count

/-- The bytes of a number, most significant first. Zero has one. -/
def ofNat (n : Nat) : Bytes :=
  (Integer.digits 8 (max 1 (Integer.digitCount 8 n)) n).reverse.map UInt8.ofNat

/-- The last 32 bytes of a number, put at the end of 32 zeros. -/
def ofWord? (n : Nat) : Option Bytes := do
  let raw := ofNat n
  let low ← part? raw (raw.length - wordBytes) raw.length
  let start ← sub? wordBytes low.length
  copy? (List.replicate wordBytes 0) start wordBytes low

/-- A part never stops. It is the right one unless there are more bytes than indices. -/
theorem exists_slice? (bytes : Bytes) (h : offset < 2 ^ 64) (size : Nat) :
    ∃ window, bytes.slice? offset size = some window ∧ window.length = size ∧
      (bytes.length < 2 ^ 64 → window = bytes.slice offset size) := by
  have hle : min offset bytes.length ≤ min (saturatingAdd offset size) bytes.length := by
    rw [saturatingAdd_eq]
    omega
  obtain ⟨window, hwindow, hlength, heq⟩ :=
    exists_cut? 0 bytes hle (Nat.min_le_right _ _) offset size
  refine ⟨window, hwindow, hlength, fun hlen => heq rfl ?_⟩
  rw [saturatingAdd_eq]
  omega

theorem writeRange?_eq (hsize : size ≠ 0) (h : offset + size < 2 ^ 64)
    (hwindow : source.slice? start size = some window) (hlen : window.length = size) :
    bytes.writeRange? offset source start size = some (bytes.overwrite offset window) := by
  have hstop : offset + window.length = offset + size := by rw [hlen]
  rw [writeRange?, if_neg hsize, add?_of_lt h, hwindow]
  change copy? (grow 0 bytes (offset + size)) offset (offset + size) window = _
  rw [copy?_of_length hstop, splice?_grow bytes hstop]
  rfl

theorem exists_copyFrom? (hsize : size ≠ 0) (h : offset + size < 2 ^ 64) (start : Nat) :
    ∃ r, bytes.copyFrom? source start offset size = some r ∧
      (source.length < 2 ^ 64 → r = bytes.overwrite offset (source.slice start size)) := by
  rcases Nat.lt_or_ge start (2 ^ 64) with hstart | hstart
  · obtain ⟨window, hwindow, hlen, heq⟩ := exists_slice? source hstart size
    refine ⟨bytes.overwrite offset window, ?_, fun hsource => by rw [heq hsource]⟩
    rw [copyFrom?, index?_of_lt hstart]
    exact writeRange?_eq hsize h hwindow hlen
  · obtain ⟨window, hwindow, hlen, heq⟩ :=
      exists_slice? [] (by norm_num : 0 < 2 ^ 64) size
    refine ⟨bytes.overwrite offset window, ?_, fun hsource => ?_⟩
    · rw [copyFrom?, index?_of_le hstart]
      exact writeRange?_eq hsize h hwindow hlen
    · rw [heq (by norm_num), slice, slice, Padded.slice_of_le 0 (Nat.zero_le 0),
        Padded.slice_of_le 0 (hsource.le.trans hstart)]

/-- A copy of a whole source. -/
theorem writeRange?_all (bytes : Bytes) (hsize : size ≠ 0) (h : offset + size < 2 ^ 64)
    (hlen : source.length = size) :
    bytes.writeRange? offset source 0 size = some (bytes.overwrite offset source) := by
  obtain ⟨window, hwindow, hlength, heq⟩ :=
    exists_slice? source (by norm_num : 0 < 2 ^ 64) size
  rw [writeRange?_eq hsize h hwindow hlength, heq (by omega), slice,
    Padded.slice_eq_self 0 source hlen]

/-- The last bytes of a number are its lowest digits. -/
theorem drop_digits (count k n : Nat) :
    ((Integer.digits 8 count n).reverse.map UInt8.ofNat).drop (count - k) =
      (Integer.digits 8 (min k count) n).reverse.map UInt8.ofNat := by
  have hdigits : (Integer.digits 8 count n).take (count - (count - k)) =
      Integer.digits 8 (min k count) n := by
    rw [Integer.digits, ← List.map_take, List.take_range, Integer.digits]
    congr 2
    omega
  rw [← List.map_drop, List.drop_reverse, Integer.length_digits, hdigits]

/-- Zeros in front do not change a word. -/
theorem replicate_append_digits {count : Nat} (hcount : count ≤ 32)
    (h : n % 2 ^ (8 * count) = n % 2 ^ 256) :
    List.replicate (32 - count) 0 ++ (Integer.digits 8 count n).reverse.map UInt8.ofNat =
      ofWord n := by
  refine value_inj ?_ ?_
  · rw [List.length_append, List.length_replicate, List.length_map, List.length_reverse,
      Integer.length_digits, length_ofWord]
    omega
  · rw [value_append, value_replicate_zero, value_digits, Integer.ofDigits_digits,
      Nat.one_shiftLeft, h, value_ofWord]
    omega

theorem ofWord?_eq (n : Nat) : ofWord? n = some (ofWord n) := by
  obtain ⟨count, hcount⟩ : ∃ count, count = max 1 (Integer.digitCount 8 n) := ⟨_, rfl⟩
  obtain ⟨low, hlow⟩ : ∃ low : Bytes,
      low = (Integer.digits 8 (min 32 count) n).reverse.map UInt8.ofNat := ⟨_, rfl⟩
  have hlength : (ofNat n).length = count := by
    rw [ofNat, List.length_map, List.length_reverse, Integer.length_digits, hcount]
  have hpart : part? (ofNat n) ((ofNat n).length - 32) (ofNat n).length = some low := by
    rw [part?_to_end (Nat.sub_le _ _), hlength, ofNat, ← hcount, drop_digits, hlow]
  have hlen : low.length = min 32 count := by
    rw [hlow, List.length_map, List.length_reverse, Integer.length_digits]
  have hcopy : copy? (List.replicate 32 0) (32 - low.length) 32 low =
      some (List.replicate (32 - low.length) 0 ++ low) := by
    rw [copy?_of_length (by omega), splice?, if_pos (by rw [List.length_replicate]; omega),
      List.take_replicate, List.drop_replicate, Nat.sub_self, List.replicate_zero,
      List.append_nil, Nat.min_eq_left (Nat.sub_le _ _)]
  have hmod : n % 2 ^ (8 * min 32 count) = n % 2 ^ 256 := by
    have hfits : n < 2 ^ (8 * count) :=
      (Integer.digitCount_le_iff (by norm_num)).mp (hcount ▸ Nat.le_max_right _ _)
    rcases Nat.le_total 32 count with h | h
    · rw [Nat.min_eq_left h]
    · have hword : 2 ^ (8 * count) ≤ 2 ^ 256 := Nat.pow_le_pow_right (by norm_num) (by omega)
      rw [Nat.min_eq_right h, Nat.mod_eq_of_lt hfits, Nat.mod_eq_of_lt (hfits.trans_le hword)]
  have hword := replicate_append_digits (Nat.min_le_left 32 count) hmod
  rw [← hlow, ← hlen] at hword
  simp only [ofWord?, wordBytes, hpart, Option.bind_eq_bind, Option.bind_some,
    sub?_of_le (show low.length ≤ 32 by omega), hcopy, hword]

end Bytes

/-! ## Memory -/

namespace Buffer

variable {b source r : Buffer} {offset start size n : Nat} {w : Word}

/-- Both ends of a window, if it ends inside the memory. -/
def windowEnds (offset size : Nat) : Except Fault (Nat × Nat) :=
  match index? offset with
  | none => .error (.offsetOverflow offset)
  | some start =>
    match index? size with
    | none => .error (.offsetOverflow size)
    | some count =>
      match (add? start count).filter (· ≤ memoryLimit) with
      | none => .error (.offsetOverflow offset)
      | some stop => .ok (start, stop)

/-- What is done with a window that ends inside the memory. A fault is a result, and no stop. -/
def inWindow (offset size : Nat) (write? : Nat → Nat → Option Buffer) :
    Option (Except Fault Buffer) :=
  match windowEnds offset size with
  | .error fault => some (.error fault)
  | .ok (start, stop) => (write? start stop).map .ok

def slice? (b : Buffer) (offset size : Nat) : Option Buffer :=
  match b with
  | known bytes =>
    match index? offset with
    | some offset => (bytes.slice? offset size).map known
    | none => some (known (List.replicate size 0))
  | symbolic terms =>
    let start := min ((index? offset).getD (indexLimit - 1)) terms.length
    let stop := min (saturatingAdd start size) terms.length
    (cut? (.lit 0) terms start stop size).map symbolic

/-- Puts a part of a source in place as formulas. -/
def spliceFrom? (b source : Buffer) (place start stop count : Nat) : Option (List Term) := do
  let window ← source.slice? place count
  splice? (grow (.lit 0) b.lift stop) start stop window.lift

/-- Copies a part of a source into a window. -/
def copyInto? (b source : Buffer) (place start stop : Nat) : Option Buffer := do
  let count ← sub? stop start
  match b, source with
  | known bytes, known source => (bytes.copyFrom? source place start count).map known
  | b, source => (b.spliceFrom? source place start stop count).map symbolic

def writeRange? (b : Buffer) (offset : Nat) (source : Buffer) (start size : Nat) :
    Option (Except Fault Buffer) :=
  if size = 0 then some (.ok b)
  else inWindow offset size (b.copyInto? source start)

def writeWord? (b : Buffer) (offset : Nat) (w : Word) : Option (Except Fault Buffer) :=
  match b, w.natLit? with
  | known bytes, some n => inWindow offset wordBytes fun start _ => do
    let word ← Bytes.ofWord? n
    let written ← bytes.writeRange? start word 0 wordBytes
    return known written
  | b, _ => b.writeRange? offset (symbolic w.toBytes) 0 wordBytes

def writeByte? (b : Buffer) (offset : Nat) (w : Word) : Option (Except Fault Buffer) :=
  match b, w.lowByte.natLit? with
  | known bytes, some n => inWindow offset 1 fun start _ => do
    let written ← bytes.writeRange? start [.ofNat n] 0 1
    return known written
  | b, _ => b.writeRange? offset (symbolic [w.lowByte]) 0 1

theorem filter_add? (i j : Nat) :
    (add? i j).filter (· ≤ memoryLimit) = if i + j ≤ 2 ^ 32 then some (i + j) else none := by
  have hmemory : memoryLimit = 2 ^ 32 := Nat.one_shiftLeft 32
  rw [hmemory]
  rcases Nat.lt_or_ge (i + j) (2 ^ 64) with h | h
  · rw [add?_of_lt h, Option.filter_some]
    simp only [decide_eq_true_eq]
  · rw [add?, index?_of_le h, if_neg (by omega)]
    rfl

theorem windowEnds_eq (offset size : Nat) :
    windowEnds offset size = (checkWindow offset size).map fun _ => (offset, offset + size) := by
  rw [windowEnds, checkWindow_eq]
  rcases Nat.lt_or_ge offset (2 ^ 64) with hoffset | hoffset
  · rcases Nat.lt_or_ge size (2 ^ 64) with hsize | hsize
    · simp only [index?_of_lt hoffset, index?_of_lt hsize, filter_add?]
      rw [if_neg (show ¬ (offset < 2 ^ 64 ∧ 2 ^ 64 ≤ size) by omega)]
      by_cases h : offset + size ≤ 2 ^ 32
      · rw [if_pos h, if_pos h]
        rfl
      · rw [if_neg h, if_neg h]
        rfl
    · rw [index?_of_lt hoffset, index?_of_le hsize, if_neg (by omega), if_pos ⟨hoffset, hsize⟩]
      rfl
  · rw [index?_of_le hoffset, if_neg (by omega), if_neg (by omega)]
    rfl

/-- What would be done outside of the memory makes no difference. -/
theorem exists_inWindow {write? : Nat → Nat → Option Buffer} {p : Prop}
    (h : offset + size ≤ 2 ^ 32 →
      ∃ s, write? offset (offset + size) = some s ∧ (p → s = r)) :
    ∃ s, inWindow offset size write? = some s ∧
      (p → s = (checkWindow offset size).map fun _ => r) := by
  rw [inWindow, windowEnds_eq]
  cases hcheck : checkWindow offset size with
  | error fault => exact ⟨.error fault, rfl, fun _ => rfl⟩
  | ok =>
    obtain ⟨s, hs, heq⟩ := h (checkWindow_eq_ok_iff.mp hcheck)
    exact ⟨.ok s, congrArg (Option.map Except.ok) hs, fun hp => congrArg Except.ok (heq hp)⟩

theorem exists_slice? (b : Buffer) (offset size : Nat) :
    ∃ window, b.slice? offset size = some window ∧ window.length = size ∧
      (b.length < 2 ^ 64 → window = b.slice offset size) := by
  cases b with
  | known bytes =>
    rcases Nat.lt_or_ge offset (2 ^ 64) with h | h
    · obtain ⟨window, hwindow, hlength, heq⟩ := bytes.exists_slice? h size
      refine ⟨known window, ?_, hlength, fun hlen => congrArg known (heq hlen)⟩
      rw [slice?, index?_of_lt h]
      change (bytes.slice? offset size).map known = _
      rw [hwindow]
      rfl
    · refine ⟨known (List.replicate size 0), ?_, List.length_replicate, fun hlen => ?_⟩
      · rw [slice?, index?_of_le h]
      · have hle : bytes.length ≤ offset := le_trans (Nat.le_of_lt hlen) h
        rw [slice, Bytes.slice, Padded.slice_of_le 0 hle]
  | symbolic terms =>
    obtain ⟨start, hstart⟩ : ∃ start, start = min (min offset (2 ^ 64 - 1)) terms.length := ⟨_, rfl⟩
    obtain ⟨stop, hstop⟩ : ∃ stop, stop = min (min (start + size) (2 ^ 64 - 1)) terms.length :=
      ⟨_, rfl⟩
    obtain ⟨window, hwindow, hlength, heq⟩ :=
      exists_cut? (.lit 0) terms (by omega : start ≤ stop) (by omega) offset size
    refine ⟨symbolic window, ?_, hlength, fun hlen => congrArg symbolic (heq ?_ ?_)⟩
    · simp only [slice?, index?_getD, saturatingAdd_eq, ← hstart, ← hstop, hwindow, Option.map_some]
    · rw [length] at hlen
      omega
    · rw [length] at hlen
      omega

theorem exists_spliceFrom? (b source : Buffer) (offset start size : Nat) :
    ∃ r, b.spliceFrom? source start offset (offset + size) size = some r ∧
      (source.length < 2 ^ 64 →
        r = Padded.overwrite (.lit 0) b.lift offset (source.slice start size).lift) := by
  obtain ⟨window, hwindow, hlen, heq⟩ := exists_slice? source start size
  have hstop : offset + window.lift.length = offset + size := by rw [length_lift, hlen]
  refine ⟨Padded.overwrite (.lit 0) b.lift offset window.lift, ?_, fun h => by rw [heq h]⟩
  simp only [spliceFrom?, hwindow, Option.bind_eq_bind, Option.bind_some, splice?_grow b.lift hstop]

/-- Nothing stops in a window whose ends are indices. -/
theorem exists_copyInto? (hsize : size ≠ 0) (h : offset + size < 2 ^ 64) (b source : Buffer)
    (start : Nat) :
    ∃ r, b.copyInto? source start offset (offset + size) = some r ∧
      (source.length < 2 ^ 64 → r = b.overwrite offset (source.slice start size)) := by
  have hcount : sub? (offset + size) offset = some size := by
    rw [sub?_of_le (Nat.le_add_right ..), Nat.add_sub_cancel_left]
  simp only [copyInto?, hcount, Option.bind_eq_bind, Option.bind_some]
  have hlifted : ∃ r, (b.spliceFrom? source start offset (offset + size) size).map symbolic =
      some r ∧ (source.length < 2 ^ 64 →
        r = symbolic (Padded.overwrite (.lit 0) b.lift offset (source.slice start size).lift)) := by
    obtain ⟨terms, hterms, heq⟩ := exists_spliceFrom? b source offset start size
    exact ⟨symbolic terms, by rw [hterms, Option.map_some], fun hlen => by rw [heq hlen]⟩
  cases b with
  | symbolic => exact hlifted
  | known bytes =>
    cases source with
    | symbolic => exact hlifted
    | known source =>
      obtain ⟨r, hr, heq⟩ := Bytes.exists_copyFrom? hsize h start
      exact ⟨known r, congrArg (Option.map known) hr, fun hlen => congrArg known (heq hlen)⟩

/-- A copy of something never stops. -/
theorem exists_writeRange? (hsize : size ≠ 0) (b source : Buffer) (offset start : Nat) :
    ∃ r, b.writeRange? offset source start size = some r ∧
      (source.length < 2 ^ 64 → r = b.writeRange offset source start size) := by
  rw [writeRange?, if_neg hsize, writeRange_eq hsize]
  exact exists_inWindow fun h => exists_copyInto? hsize (by omega) b source start

theorem exists_writeWord? (b : Buffer) (offset : Nat) (w : Word) :
    ∃ r, b.writeWord? offset w = some r ∧
      (w.toBytes.length < 2 ^ 64 → r = b.writeWord offset w) := by
  have hcopy := exists_writeRange? (by norm_num : 32 ≠ 0) b (symbolic w.toBytes) offset 0
  unfold writeWord?
  cases hn : w.natLit? with
  | none =>
    rw [writeWord_of_unknown hn]
    cases b <;> exact hcopy
  | some n =>
    cases b with
    | symbolic terms => exact hcopy
    | known bytes =>
      rw [writeWord_of_known hn]
      refine exists_inWindow fun h => ⟨known (bytes.writeWord offset n), ?_, fun _ => rfl⟩
      rw [wordBytes] at h
      have hwrite := Bytes.writeRange?_all bytes (by norm_num)
        (by omega : offset + 32 < 2 ^ 64) (Bytes.length_ofWord n)
      simp only [Bytes.ofWord?_eq, Option.bind_eq_bind, Option.bind_some, wordBytes, hwrite]
      rfl

theorem exists_writeByte? (b : Buffer) (offset : Nat) (w : Word) :
    ∃ r, b.writeByte? offset w = some r ∧
      ([w.lowByte].length < 2 ^ 64 → r = b.writeByte offset w) := by
  have hcopy := exists_writeRange? (by norm_num : 1 ≠ 0) b (symbolic [w.lowByte]) offset 0
  unfold writeByte?
  cases hn : w.lowByte.natLit? with
  | none =>
    rw [writeByte_of_unknown hn]
    cases b <;> exact hcopy
  | some n =>
    cases b with
    | symbolic terms => exact hcopy
    | known bytes =>
      rw [writeByte_of_known hn]
      refine exists_inWindow fun h =>
        ⟨known (bytes.writeByte offset (.ofNat n)), ?_, fun _ => rfl⟩
      have hwrite := Bytes.writeRange?_all bytes (by norm_num)
        (by omega : offset + 1 < 2 ^ 64) (rfl : [UInt8.ofNat n].length = 1)
      simp only [Option.bind_eq_bind, hwrite]
      rfl

end Buffer

/-! ## Writes of every kind -/

namespace Write

/-- A write as the host does it. -/
def run? (b : Buffer) : Write → Option (Except Fault Buffer)
  | range offset source start size => b.writeRange? offset source start size
  | word offset w => b.writeWord? offset w
  | byte offset w => b.writeByte? offset w

/-- No write stops, and if its source has no more bytes than there are indices, it does on the host
what it does here. -/
theorem exists_run? (W : Write) (b : Buffer) :
    ∃ r, W.run? b = some r ∧ (W.source.length < 2 ^ 64 → r = W.run b) := by
  cases W with
  | word offset w => exact Buffer.exists_writeWord? b offset w
  | byte offset w => exact Buffer.exists_writeByte? b offset w
  | range offset source start size =>
    by_cases hsize : size = 0
    · exact ⟨.ok b, if_pos hsize, fun _ => (if_pos hsize).symm⟩
    · exact Buffer.exists_writeRange? hsize b source offset start

/-- **A write is refused if and only if it leaves the addressable memory.** This is decided by its
offset and its size alone, as integers without a bound, and by nothing else about the write or the
destination. The number to blame is the offset, unless only the size is not an index. A write of
nothing is never refused. The window of any other write that is accepted ends at an index. The host,
which checks all its sums and all its parts of lists, gets to the end of every write, and with the
same result, as its lists are not longer than its indices. -/
theorem refused_iff_past_memory (W : Write) (b : Buffer) :
    (∀ fault, W.run b = .error fault ↔ 0 < W.size ∧ 2 ^ 32 < W.offset + W.size ∧
      fault = .offsetOverflow
        (if W.offset < 2 ^ 64 ∧ 2 ^ 64 ≤ W.size then W.size else W.offset)) ∧
    (W.size = 0 → W.run b = .ok b) ∧
    (∀ r, W.run b = .ok r → W.size ≠ 0 →
      Host.add? W.offset W.size = some (W.offset + W.size)) ∧
    ∃ r, W.run? b = some r ∧ (W.source.length < 2 ^ 64 → r = W.run b) := by
  refine ⟨W.run_eq_error_iff b, W.run_of_size_eq_zero b, fun r hr hsize => ?_, W.exists_run? b⟩
  apply Host.add?_of_lt
  by_contra h
  have hrefused := (W.run_eq_error_iff b _).mpr ⟨by omega, by omega, rfl⟩
  rw [hr] at hrefused
  cases hrefused

/-- Four bytes copied to the last place where they fit, from a place that is not an index; the same
one place further; and copies of nothing and of too much. -/
theorem refused_iff_past_memory_at_limit :
    let b := Buffer.known [1, 2]
    let copy := fun offset size => Write.range offset (.symbolic [.var "x"]) (2 ^ 70) size
    (∃ r, (copy (2 ^ 32 - 4) 4).run b = .ok r ∧ (copy (2 ^ 32 - 4) 4).run? b = some (.ok r) ∧
      Host.add? (2 ^ 32 - 4) 4 = some (2 ^ 32)) ∧
      (copy (2 ^ 32 - 3) 4).run b = .error (.offsetOverflow (2 ^ 32 - 3)) ∧
      (copy 7 (2 ^ 64)).run b = .error (.offsetOverflow (2 ^ 64)) ∧
      (copy (2 ^ 70) 0).run b = .ok b := by
  intro b copy
  have accepted : ∀ W : Write, W.offset + W.size ≤ 2 ^ 32 → W.size ≠ 0 → W.source.length < 2 ^ 64 →
      ∃ r, W.run b = .ok r ∧ W.run? b = some (.ok r) ∧
        Host.add? W.offset W.size = some (W.offset + W.size) := by
    intro W hend hsize hsource
    obtain ⟨hrefused, -, hadd, s, hs, heq⟩ := refused_iff_past_memory W b
    cases hrun : W.run b with
    | error fault => exact absurd ((hrefused fault).mp hrun).2.1 (by omega)
    | ok r => exact ⟨r, rfl, by rw [hs, heq hsource, hrun], hadd r hrun hsize⟩
  have refused : ∀ (W : Write) (n : Nat), 0 < W.size → 2 ^ 32 < W.offset + W.size →
      n = (if W.offset < 2 ^ 64 ∧ 2 ^ 64 ≤ W.size then W.size else W.offset) →
      W.run b = .error (.offsetOverflow n) := by
    rintro W n hsize hend rfl
    exact ((refused_iff_past_memory W b).1 _).mpr ⟨hsize, hend, rfl⟩
  have nothing : ∀ W : Write, W.size = 0 → W.run b = .ok b :=
    fun W => (refused_iff_past_memory W b).2.1
  have hend : 2 ^ 32 - 4 + 4 = 2 ^ 32 := by norm_num
  obtain ⟨r, hr, hr', hadd⟩ := accepted (copy (2 ^ 32 - 4) 4) hend.le (by decide) (by
    norm_num [copy, source, Buffer.length])
  refine ⟨⟨r, hr, hr', hend ▸ hadd⟩, refused _ _ ?_ ?_ ?_, refused _ _ ?_ ?_ ?_, nothing _ rfl⟩
  · exact (by norm_num : 0 < 4)
  · exact (by norm_num : 2 ^ 32 < 2 ^ 32 - 3 + 4)
  · exact (if_neg (by norm_num : ¬ (2 ^ 32 - 3 < 2 ^ 64 ∧ 2 ^ 64 ≤ 4))).symm
  · exact (by norm_num : 0 < 2 ^ 64)
  · exact (by norm_num : 2 ^ 32 < 7 + 2 ^ 64)
  · exact (if_pos (by norm_num : 7 < 2 ^ 64 ∧ 2 ^ 64 ≤ 2 ^ 64)).symm

end Write

end SymbolicMachine
