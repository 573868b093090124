import Mathlib
import SymbolicMachine.Memory.Buffer
import SymbolicMachine.Proofs.Word.Window

/-!
# A buffer is the list of its byte formulas

The two forms of a buffer compute in different ways, but each access gives what the operation of the
same kind on `Buffer.lift` gives: one equation for each access, for both forms and for formulas that
need not have a value. Words are the exception to equality. Known bytes give an untagged word, so
the equation is about its formula (`term_readField`).
-/

namespace SymbolicMachine

/-! ## Padded lists -/

namespace Padded

variable {α β : Type} (f : α → β) (x : α) (xs : List α)

/-- Lists are equal if they have the same length and the same element at every place. -/
theorem ext {x : α} {xs ys : List α} (hlen : xs.length = ys.length)
    (h : ∀ i, get x xs i = get x ys i) : xs = ys := by
  refine List.ext_getElem hlen fun i hx hy => ?_
  have hi := h i
  rwa [get, get, List.getD_eq_getElem _ _ hx, List.getD_eq_getElem _ _ hy] at hi

theorem get_map (i : Nat) : get (f x) (xs.map f) i = f (get x xs i) := by
  simp only [get, List.getD_eq_getElem?_getD, List.getElem?_map]
  cases xs[i]? <;> rfl

theorem map_rightpad (n : Nat) : (xs.rightpad n x).map f = (xs.map f).rightpad n (f x) := by
  simp [List.rightpad]

theorem map_slice (start size : Nat) :
    (slice x xs start size).map f = slice (f x) (xs.map f) start size := by
  rw [slice, slice, map_rightpad, List.map_take, List.map_drop]

theorem map_overwrite (start : Nat) (window : List α) :
    (overwrite x xs start window).map f = overwrite (f x) (xs.map f) start (window.map f) := by
  rw [overwrite, overwrite, List.map_append, List.map_append, map_rightpad, List.map_take,
    List.map_drop, List.length_map]

/-- A list is what lies in it from its start to its end. -/
theorem slice_eq_self {size : Nat} (h : xs.length = size) : slice x xs 0 size = xs := by
  simp [slice, List.rightpad, ← h]

theorem slice_of_le {xs : List α} {start : Nat} (h : xs.length ≤ start) (size : Nat) :
    slice x xs start size = List.replicate size x := by
  rw [slice, List.drop_of_length_le h, List.take_nil, List.rightpad, List.length_nil, Nat.sub_zero,
    List.nil_append]

/-- What has just been put in place. -/
theorem slice_overwrite_self (start : Nat) {size : Nat} {window : List α}
    (h : window.length = size) : slice x (overwrite x xs start window) start size = window := by
  have hprefix := length_rightpad_take x xs start
  rw [slice, overwrite, List.append_assoc, List.drop_left' hprefix, List.take_left' h,
    List.rightpad, h, Nat.sub_self, List.replicate_zero, List.append_nil]

/-- An overwritten list in three pieces. -/
theorem overwrite_eq_append (start : Nat) (window : List α) :
    overwrite x xs start window =
      slice x xs 0 start ++ window ++ xs.drop (start + window.length) := by
  rw [overwrite, slice, List.drop_zero]

end Padded

namespace Buffer

variable (b b' : Buffer) (offset size n : Nat)

theorem length_lift : b.lift.length = b.length := by
  cases b with
  | known bytes => exact List.length_map _
  | symbolic terms => rfl

theorem readByte_eq : b.readByte offset = Padded.get (.lit 0) b.lift offset := by
  cases b with
  | known bytes => exact (Padded.get_map (fun b : UInt8 => Term.nat b.toNat) 0 bytes offset).symm
  | symbolic terms => rfl

theorem lift_take : (b.take n).lift = b.lift.take n := by
  cases b with
  | known bytes => exact List.map_take
  | symbolic terms => rfl

theorem lift_drop : (b.drop n).lift = b.lift.drop n := by
  cases b with
  | known bytes => exact List.map_drop
  | symbolic terms => rfl

theorem lift_append : (b.append b').lift = b.lift ++ b'.lift := by
  cases b with
  | known bytes =>
    cases b' with
    | known bytes' => exact List.map_append
    | symbolic terms' => rfl
  | symbolic terms => rfl

theorem lift_slice : (b.slice offset size).lift = Padded.slice (.lit 0) b.lift offset size := by
  cases b with
  | known bytes => exact Padded.map_slice (fun b : UInt8 => Term.nat b.toNat) 0 bytes offset size
  | symbolic terms => rfl

theorem lift_overwrite :
    (b.overwrite offset b').lift = Padded.overwrite (.lit 0) b.lift offset b'.lift := by
  cases b with
  | known bytes =>
    cases b' with
    | known bytes' =>
      exact Padded.map_overwrite (fun b : UInt8 => Term.nat b.toNat) 0 bytes offset bytes'
    | symbolic terms' => rfl
  | symbolic terms => rfl

/-- The formula of a word read from memory is its bytes put together. -/
theorem term_readField {width : Nat} (hw : width ≤ 32) :
    (b.readField offset width).term = .ofBytes (Padded.slice (.lit 0) b.lift offset width) := by
  cases b with
  | known bytes =>
    have hbytes : Term.MeansBytes (fun _ => none) True ((known bytes).slice offset width).lift
        (bytes.slice offset width) := .lift _
    have hlit : (Word.lit (bytes.readField offset width)).Means (fun _ => none) True _ :=
      Word.means_lit _
    rw [Nat.mod_eq_of_lt (Bytes.readField_lt bytes offset hw)] at hlit
    rw [← lift_slice, hbytes.ofBytes.lit trivial]
    exact hlit.term.lit trivial
  | symbolic terms => rfl

end Buffer

end SymbolicMachine
