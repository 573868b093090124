import Mathlib
import SymbolicMachine.Memory.Known

/-!
# Bytes and the numbers they spell

The number in some bytes is below the power of 256 that their count gives, and among as many bytes
only those spell it (`value_inj`). So the 32 bytes of a word and the number in 32 bytes undo each
other: `value_ofWord` and `ofWord_value`.
-/

namespace SymbolicMachine.Bytes

/-! ## The number in some bytes -/

theorem value_foldl (bytes : Bytes) (high : Nat) :
    bytes.foldl (fun high byte => 256 * high + byte.toNat) high =
      high * 256 ^ bytes.length + value bytes := by
  induction bytes generalizing high with
  | nil => simp [value]
  | cons b bytes ih =>
    rw [value, List.foldl_cons, List.foldl_cons, ih, ih (256 * 0 + _), List.length_cons]
    ring

theorem value_append (xs ys : Bytes) :
    value (xs ++ ys) = value xs * 256 ^ ys.length + value ys := by
  rw [value, List.foldl_append, value_foldl ys]
  rfl

theorem value_cons (b : UInt8) (bytes : Bytes) :
    value (b :: bytes) = b.toNat * 256 ^ bytes.length + value bytes := by
  rw [← List.singleton_append, value_append]
  simp [value]

theorem value_replicate_zero (n : Nat) : value (List.replicate n 0) = 0 := by
  induction n with
  | zero => rfl
  | succ n ih => rw [List.replicate_succ, value_cons, ih]; simp

theorem value_lt (bytes : Bytes) : value bytes < 256 ^ bytes.length := by
  induction bytes with
  | nil => simp [value]
  | cons b bytes ih =>
    have hb : b.toNat * 256 ^ bytes.length ≤ 255 * 256 ^ bytes.length :=
      Nat.mul_le_mul_right _ (Nat.le_of_lt_succ b.toNat_lt)
    rw [value_cons, List.length_cons, pow_succ]
    omega

/-- The number in at most 32 bytes is a machine word. -/
theorem value_lt_of_length_le {bytes : Bytes} (h : bytes.length ≤ 32) : value bytes < 2 ^ 256 := by
  refine (value_lt bytes).trans_le ?_
  rw [show 2 ^ 256 = 256 ^ 32 by norm_num]
  exact Nat.pow_le_pow_right (by norm_num) h

theorem readField_lt (bytes : Bytes) (offset : Nat) {width : Nat} (hw : width ≤ 32) :
    bytes.readField offset width < 2 ^ 256 :=
  value_lt_of_length_le ((Padded.length_slice 0 bytes offset width).trans_le hw)

/-- As many bytes with the same number are the same bytes. -/
theorem value_inj {xs ys : Bytes} (hlen : xs.length = ys.length) (h : value xs = value ys) :
    xs = ys := by
  induction xs generalizing ys with
  | nil => exact (List.length_eq_zero_iff.mp hlen.symm).symm
  | cons x xs ih =>
    obtain ⟨y, ys, rfl⟩ := List.exists_cons_of_length_eq_add_one hlen.symm
    have htail : xs.length = ys.length := Nat.succ.inj hlen
    rw [value_cons, value_cons, htail] at h
    have hx : value xs < 256 ^ ys.length := htail ▸ value_lt xs
    have hhead : x.toNat = y.toNat := by
      have hd := congrArg (· / 256 ^ ys.length) h
      simpa [Nat.mul_add_div, Nat.add_div_of_dvd_right, Nat.div_eq_of_lt, hx, value_lt ys,
        Nat.mul_comm] using hd
    rw [UInt8.toNat_inj.mp hhead, ih htail (by rw [hhead] at h; omega)]

/-! ## The bytes of a word -/

@[simp] theorem length_ofWord (n : Nat) : (ofWord n).length = 32 := by simp [ofWord, wordBytes]

theorem value_digits (count n : Nat) :
    value ((Integer.digits 8 count n).reverse.map UInt8.ofNat) =
      Integer.ofDigits 8 (Integer.digits 8 count n) := by
  induction count generalizing n with
  | zero => rfl
  | succ count ih =>
    rw [Integer.digits_succ, List.reverse_cons, List.map_append, value_append, ih,
      Integer.ofDigits]
    simp [value, Nat.shiftLeft_eq, Nat.add_comm]

theorem value_ofWord (n : Nat) : value (ofWord n) = n % 2 ^ 256 := by
  rw [ofWord, value_digits, Integer.ofDigits_digits]
  rfl

theorem ofWord_value {bytes : Bytes} (h : bytes.length = 32) : ofWord (value bytes) = bytes := by
  refine value_inj (by rw [length_ofWord, h]) ?_
  rw [value_ofWord, Nat.mod_eq_of_lt (value_lt_of_length_le h.le)]

/-- Byte `i` of a word counts the multiples of its weight. -/
theorem ofWord_eq (n : Nat) :
    ofWord n = (List.range 32).map fun i => UInt8.ofNat (n / 2 ^ (8 * (31 - i)) % 256) := by
  refine List.ext_getElem (by simp) fun i hi _ => ?_
  simp [ofWord, Integer.digits, Nat.shiftRight_eq_div_pow, wordBytes]

theorem toNat_get_ofWord (n : Nat) {i : Nat} (hi : i < 32) :
    (Padded.get 0 (ofWord n) i).toNat = n / 256 ^ (31 - i) % 256 := by
  rw [Padded.get, List.getD_eq_getElem _ _ (by simpa using hi)]
  simp only [ofWord_eq, List.getElem_map, List.getElem_range]
  rw [UInt8.toNat_ofNat_of_lt' (Nat.mod_lt _ (by norm_num)), pow_mul]
  rfl

/-- Dropping bytes at the end divides by their weight. -/
theorem value_take (bytes : Bytes) (n : Nat) :
    value (bytes.take (bytes.length - n)) = value bytes / 256 ^ n := by
  rcases Nat.le_total n bytes.length with hle | hle
  · have hlen : (bytes.drop (bytes.length - n)).length = n := by
      rw [List.length_drop]
      omega
    have hlt := value_lt (bytes.drop (bytes.length - n))
    conv_rhs => rw [← List.take_append_drop (bytes.length - n) bytes, value_append]
    rw [hlen] at hlt ⊢
    rw [Nat.mul_comm, Nat.mul_add_div (by positivity), Nat.div_eq_of_lt hlt, Nat.add_zero]
  · have hlt := (value_lt bytes).trans_le (Nat.pow_le_pow_right (by norm_num) hle)
    rw [Nat.sub_eq_zero_of_le hle, List.take_zero, Nat.div_eq_of_lt hlt]
    rfl

end SymbolicMachine.Bytes
