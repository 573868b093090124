import Mathlib
import SymbolicMachine.Word.Bitwise
import SymbolicMachine.Proofs.Word.Window

/-!
# Shifts, rotations and extraction are exact

A right shift of a word read from memory by whole bytes takes a path of its own, over the window of
the word, in which the bytes are moved (`Padded.moved`, `holds_shiftWindow`); all other shifts are
guarded formulas. Both give the quotient by a power of two. Main result:
`shifts_and_extraction_exact`.
-/

namespace SymbolicMachine

/-! ## Moving a list -/

namespace Padded

variable {α : Type} (zero : α) (xs : List α)

/-- The list moved to the right by some places. The filler comes in at its start, and what is moved
past its end is lost. -/
def moved (places : Nat) : List α := (List.replicate places zero ++ xs).take xs.length

theorem length_moved (n : Nat) : (moved zero xs n).length = xs.length := by
  rw [moved, List.length_take, List.length_append]
  omega

theorem moved_eq_append (n : Nat) :
    moved zero xs n = List.replicate (min xs.length n) zero ++ xs.take (xs.length - n) := by
  rw [moved, List.take_append, List.take_replicate, List.length_replicate]

theorem moved_moved (m n : Nat) : moved zero (moved zero xs m) n = moved zero xs (m + n) := by
  have hlost : ∀ ys : List α, (List.replicate n zero ++ ys.take xs.length).take xs.length =
      (List.replicate n zero ++ ys).take xs.length := by
    intro ys
    rw [List.take_append, List.take_append, List.take_take, min_eq_left (Nat.sub_le _ _)]
  rw [moved, length_moved, moved, hlost, ← List.append_assoc, List.replicate_append_replicate,
    Nat.add_comm n m, moved]

theorem moved_of_le_length {xs : List α} {n : Nat} (h : n ≤ xs.length) :
    moved zero xs n = List.replicate n zero ++ xs.take (xs.length - n) := by
  rw [moved_eq_append, min_eq_right h]

theorem moved_of_length_le {xs : List α} {n : Nat} (h : xs.length ≤ n) :
    moved zero xs n = List.replicate xs.length zero := by
  rw [moved_eq_append, min_eq_left h, Nat.sub_eq_zero_of_le h, List.take_zero, List.append_nil]

theorem map_moved {β : Type} (f : α → β) (n : Nat) :
    (moved zero xs n).map f = moved (f zero) (xs.map f) n := by
  rw [moved, moved, List.map_take, List.map_append, List.map_replicate, List.length_map]

end Padded

/-- Moving bytes toward the end divides by their weight. -/
theorem Bytes.value_moved (bytes : Bytes) (n : Nat) :
    value (Padded.moved 0 bytes n) = value bytes / 256 ^ n := by
  rw [Padded.moved_eq_append, value_append, value_replicate_zero, value_take, Nat.zero_mul,
    Nat.zero_add]

theorem Term.MeansBytes.moved {ρ : Assignment} {known : Prop} {terms : List Term} {bytes : Bytes}
    (h : MeansBytes ρ known terms bytes) (n : Nat) :
    MeansBytes ρ known (Padded.moved (.lit 0) terms n) (Padded.moved 0 bytes n) := by
  rw [Padded.moved, Padded.moved, h.length_eq]
  exact ((zeros n).append h).take bytes.length

namespace Word

variable {ρ : Assignment} {known : Prop} {x y : Word} {a b : Nat}

/-! ## Shifts -/

theorem means_shiftLeft (hx : x.Means ρ known a) (hy : y.Means ρ known b) :
    (x.shiftLeft y).Means ρ known (if b < 256 then a * 2 ^ b % 2 ^ 256 else 0) := by
  refine means_ite (.lt_nat hy.term (.ofNat 256)) (fun hb => ?_) fun _ => means_zero
  exact means_masked (hx.term.binary hy.term (BinaryOp.eval_shl (by omega)))

/-- The quotient is zero anyway once the amount reaches the width. -/
theorem shifted_eq_div (ha : a < 2 ^ 256) : (if b < 256 then a / 2 ^ b else 0) = a / 2 ^ b := by
  split
  · rfl
  · have hle : 2 ^ 256 ≤ 2 ^ b := Nat.pow_le_pow_right two_pos (by omega)
    exact (Nat.div_eq_of_lt (ha.trans_le hle)).symm

theorem moved_window {window : List Term} {n : Nat} (hw : x.window? = some window) (hn : n ≤ 32) :
    Padded.moved (.lit 0) window n =
      List.replicate n (.lit 0) ++ window.take (wordBytes - n) := by
  obtain ⟨-, hlen, -⟩ := window?_eq_some hw
  rw [Padded.moved_of_le_length _ (hlen ▸ hn), hlen, wordBytes]

/-- The path over the window is taken by a word that is no literal and has a window, if the amount
is a literal and a number of whole bytes up to all of them. -/
theorem shiftWindow?_eq_some_iff {r : Word} :
    x.shiftWindow? y = some r ↔ ¬ x.term.isLit ∧ ∃ n window, n ≤ 32 ∧
      y.term = .lit (8 * n : Nat) ∧ x.window? = some window ∧
      r = ofBytes (Padded.moved (.lit 0) window n) := by
  unfold shiftWindow?
  constructor
  · intro h
    split at h
    · cases h
    · obtain ⟨m, hm, h⟩ := Option.bind_eq_some_iff.mp h
      split at h
      · obtain ⟨window, hw, hr⟩ := Option.bind_eq_some_iff.mp h
        obtain ⟨hmod, hle⟩ : m % 8 = 0 ∧ m ≤ 256 := ‹_›
        have hn : m / 8 ≤ 32 := by omega
        refine ⟨‹_›, m / 8, window, hn, ?_, hw, ?_⟩
        · rw [Nat.mul_div_cancel' (Nat.dvd_of_mod_eq_zero hmod)]
          exact Term.natLit?_eq_some.mp hm
        · rw [moved_window hw hn]
          exact (Option.some.inj hr).symm
      · cases h
  · rintro ⟨hl, n, window, hn, hamount, hw, rfl⟩
    have hwhole : 8 * n % 8 = 0 ∧ 8 * n ≤ wordBits := by
      rw [wordBits]
      omega
    rw [if_neg hl, show y.natLit? = some (8 * n) from Term.natLit?_eq_some.mpr hamount,
      Option.bind_eq_bind, Option.bind_some, if_pos hwhole, hw,
      Nat.mul_div_cancel_left n (by norm_num), moved_window hw hn]
    rfl

theorem holds_shiftWindow {r : Word} (hx : x.Holds ρ known a) (hy : y.Means ρ known b)
    (h : x.shiftWindow? y = some r) :
    r.Holds ρ known (if b < 256 then a / 2 ^ b else 0) := by
  obtain ⟨hl, n, window, -, hamount, hw, rfl⟩ := shiftWindow?_eq_some_iff.mp h
  have hbytes := (hx.window hw hl).moved n
  have hb : b = 8 * n := Int.natCast_inj.mp (Term.eq_of_eval_lit hamount hy.term.eval)
  have hvalue : Bytes.value (Padded.moved 0 (Bytes.ofWord a) n) = a / 2 ^ b := by
    rw [Bytes.value_moved, Bytes.value_ofWord, Nat.mod_eq_of_lt hx.lt, hb, pow_mul]
    rfl
  have hlen : (Padded.moved 0 (Bytes.ofWord a) n).length = 32 := by
    rw [Padded.length_moved, Bytes.length_ofWord]
  rw [shifted_eq_div hx.lt, ← hvalue]
  exact holds_ofBytes hbytes (Bytes.value_lt_of_length_le hlen.le)

theorem holds_shiftRight (hx : x.Holds ρ known a) (hy : y.Means ρ known b) :
    (x.shiftRight y).Holds ρ known (if b < 256 then a / 2 ^ b else 0) := by
  unfold shiftRight
  cases h : x.shiftWindow? y with
  | some r => exact holds_shiftWindow hx hy h
  | none =>
    have hlt : a / 2 ^ b < 2 ^ 256 := (Nat.div_le_self _ _).trans_lt hx.lt
    refine (means_ite (.lt_nat hy.term (.ofNat 256)) (fun _ => ?_) fun _ => means_zero).holds
    exact means_masked_of_lt (hx.term.binary hy.term (BinaryOp.eval_shr_natCast ..)) hlt

/-! ## Rotations -/

theorem means_amount (hy : y.Means ρ known b) :
    (Term.mkBinary .mod y.term .wordBits).Means ρ known ((b % 256 : Nat) : Int) :=
  hy.term.binary (.ofNat 256) (BinaryOp.eval_mod ..)

theorem means_rest (hy : y.Means ρ known b) :
    (.wordBits - Term.mkBinary .mod y.term .wordBits : Term).Means ρ known
      ((256 - b % 256 : Nat) : Int) := by
  refine ((Term.Means.ofNat 256).binary (means_amount hy) rfl).congr ?_
  have := Nat.mod_lt b (show 0 < 256 by norm_num)
  omega

theorem means_rotateLeft (hx : x.Means ρ known a) (hy : y.Means ρ known b) :
    (x.rotateLeft y).Means ρ known ((BitVec.ofNat 256 a).rotateLeft b).toNat := by
  have high := hx.term.binary (means_amount hy) (BinaryOp.eval_shl (n := b % 256) (by omega))
  have low := hx.term.binary (means_rest hy) (BinaryOp.eval_shr_natCast ..)
  refine (means_masked (high.binary low (BinaryOp.eval_or ..))).congr ?_
  have hlow : a / 2 ^ (256 - b % 256) < 2 ^ 256 := (Nat.div_le_self _ _).trans_lt hx.lt
  rw [BitVec.toNat_rotateLeft, BitVec.toNat_ofNat, Nat.mod_eq_of_lt hx.lt, Nat.or_mod_two_pow,
    Nat.mod_eq_of_lt hlow, Nat.shiftLeft_eq, Nat.shiftRight_eq_div_pow]

theorem means_rotateRight (hx : x.Means ρ known a) (hy : y.Means ρ known b) :
    (x.rotateRight y).Means ρ known ((BitVec.ofNat 256 a).rotateRight b).toNat := by
  have low := hx.term.binary (means_amount hy) (BinaryOp.eval_shr_natCast ..)
  have high := hx.term.binary (means_rest hy) (BinaryOp.eval_shl (n := 256 - b % 256) (by omega))
  refine (means_masked (low.binary high (BinaryOp.eval_or ..))).congr ?_
  have hlow : a / 2 ^ (b % 256) < 2 ^ 256 := (Nat.div_le_self _ _).trans_lt hx.lt
  rw [BitVec.toNat_rotateRight, BitVec.toNat_ofNat, Nat.mod_eq_of_lt hx.lt, Nat.or_mod_two_pow,
    Nat.mod_eq_of_lt hlow, Nat.shiftLeft_eq, Nat.shiftRight_eq_div_pow]

/-! ## Extraction -/

theorem means_testBit (hx : x.Means ρ known a) (hy : y.Means ρ known b) :
    (x.testBit y).Means ρ known (a.testBit b).toNat := by
  refine ⟨hx.term.binary hy.term (BinaryOp.eval_testBit ..), ?_⟩
  exact (Bool.toNat_le _).trans_lt (by norm_num)

/-- The lowest byte of a term as a word. -/
theorem means_ofTerm_lowByte {t : Term} (h : t.Means ρ known (a : Int)) :
    (ofTerm t.lowByte).Means ρ known (a % 256) :=
  ⟨Term.means_lowByte h, (Nat.mod_lt _ (by norm_num)).trans (by norm_num)⟩

theorem means_byte (hx : x.Means ρ known a) (hy : y.Means ρ known b) :
    (x.byte y).Means ρ known (if b ≤ 31 then a / 256 ^ (31 - b) % 256 else 0) := by
  have inside : (Cond.mkLt y.term (.nat wordBytes)).Means ρ known (decide (b < 32)) :=
    .lt_nat hy.term (.ofNat 32)
  rw [decide_eq_decide.mpr (Nat.lt_succ_iff (n := 31))] at inside
  refine means_ite inside (fun hb => ?_) fun _ => means_zero
  have shift : ((Term.nat 31 - y.term) * .lit 8 : Term).Means ρ known
      ((8 * (31 - b) : Nat) : Int) := by
    refine (((Term.Means.ofNat 31).binary hy.term rfl).binary (.ofLit 8) rfl).congr ?_
    omega
  rw [show 256 ^ (31 - b) = 2 ^ (8 * (31 - b)) by rw [pow_mul]; norm_num]
  exact means_ofTerm_lowByte (hx.term.binary shift (BinaryOp.eval_shr_natCast ..))

/-! ## All together -/

/-- **Shifts, rotations and extraction are exact.** For words with any formulas and any tags, under
every assignment that gives the formulas machine words as values, and bytes to the elements of a
window that the first one was read from. -/
theorem shifts_and_extraction_exact (hx : x.Denotes ρ a) (hy : y.Denotes ρ b)
    (tagged : x.ByteTagged ρ) :
    Computes ρ [x, y] (x.shiftLeft y) (if b < 256 then a * 2 ^ b % 2 ^ 256 else 0) ∧
    Computes ρ [x, y] (x.shiftRight y) (if b < 256 then a / 2 ^ b else 0) ∧
    Computes ρ [x, y] (x.rotateLeft y) ((BitVec.ofNat 256 a).rotateLeft b).toNat ∧
    Computes ρ [x, y] (x.rotateRight y) ((BitVec.ofNat 256 a).rotateRight b).toNat ∧
    Computes ρ [x, y] (x.testBit y) (if b < 256 then (a.testBit b).toNat else 0) ∧
    Computes ρ [x, y] (x.byte y) (if b ≤ 31 then a / 256 ^ (31 - b) % 256 else 0) := by
  have mx := hx.means_of_mem (show x ∈ [x, y] by simp)
  have my := hy.means_of_mem (show y ∈ [x, y] by simp)
  refine ⟨(means_shiftLeft mx my).computes, (holds_shiftRight ⟨mx, tagged⟩ my).computes,
    (means_rotateLeft mx my).computes, (means_rotateRight mx my).computes,
    ((means_testBit mx my).congr ?_).computes, (means_byte mx my).computes⟩
  split
  · rfl
  · have hlarge : a < 2 ^ b := hx.lt.trans_le (Nat.pow_le_pow_right two_pos (by omega))
    rw [Nat.testBit_lt_two_pow hlarge, Bool.toNat_false]

/-- A word read from memory with an unknown first byte, shifted until only that byte is left. -/
theorem shifts_and_extraction_exact_on_window :
    let bytes := Term.var "first" :: List.replicate 31 (.lit 0)
    (ofBytes bytes).Denotes (fun _ => some 255) (255 * 256 ^ 31) ∧
    (lit 248).Denotes (fun _ => some 255) 248 ∧
    (ofBytes bytes).ByteTagged (fun _ => some 255) ∧
    Computes (fun _ => some 255) [ofBytes bytes, lit 248]
      ((ofBytes bytes).shiftRight (lit 248)) 255 := by
  intro bytes
  have hbytes : Term.MeansBytes (fun _ => some 255) False bytes (255 :: List.replicate 31 0) :=
    .cons ⟨rfl, False.elim⟩ (Term.MeansBytes.zeros 31)
  have hvalue : Bytes.value (255 :: List.replicate 31 0) = 255 * 256 ^ 31 := by
    rw [Bytes.value_cons, Bytes.value_replicate_zero]
    rfl
  have hx : (ofBytes bytes).Denotes (fun _ => some 255) (255 * 256 ^ 31) :=
    ⟨(Term.compute_eq_eval _).trans (hvalue ▸ hbytes.ofBytes.eval), by norm_num⟩
  have hy : (lit 248).Denotes (fun _ => some 255) 248 :=
    ((means_lit 248).congr rfl : (lit 248).Means _ False 248).denotes
  have tagged := byteTagged_ofBytes hbytes
  exact ⟨hx, hy, tagged, (shifts_and_extraction_exact hx hy tagged).2.1⟩

end Word

end SymbolicMachine
