import Mathlib
import SymbolicMachine.Proofs.Memory.Lift

/-!
# Indices and lists of the host

The host counts the places of its lists with indices of a fixed width. It stops if a sum does not
fit them or goes below zero, and if a part of a list is not inside it; `none` stands for a stop. What
is done here with checked indices is what is done on padded lists, as soon as the ends of the part
are cut off at the end of the list (`exists_cut?`) or the list is grown before (`splice?_grow`).

There is room for every list here. The host also stops if it cannot make a list of the length that
it is asked for: at the latest when that is half of the indices or more, in practice long before,
when its store is full. No `none` stands for this stop, so wherever the host is said to get to the
end, it is taken to have room for its lists.
-/

namespace SymbolicMachine

namespace Host

/-! ## Indices -/

/-- A number as an index, if it fits. -/
def index? (n : Nat) : Option Nat := if n < indexLimit then some n else none

def add? (i j : Nat) : Option Nat := index? (i + j)

def sub? (i j : Nat) : Option Nat := if j ≤ i then some (i - j) else none

/-- The sum, or the last index if that is less. -/
def saturatingAdd (i j : Nat) : Nat := min (i + j) (indexLimit - 1)

variable {n i j : Nat}

theorem index?_of_lt (h : n < 2 ^ 64) : index? n = some n := by
  rw [index?, indexLimit, Nat.one_shiftLeft, if_pos h]

theorem index?_of_le (h : 2 ^ 64 ≤ n) : index? n = none := by
  rw [index?, indexLimit, Nat.one_shiftLeft, if_neg (by omega)]

theorem index?_getD (n : Nat) : (index? n).getD (indexLimit - 1) = min n (2 ^ 64 - 1) := by
  rcases Nat.lt_or_ge n (2 ^ 64) with h | h
  · rw [index?_of_lt h, Option.getD_some]
    omega
  · rw [index?_of_le h, Option.getD_none, indexLimit, Nat.one_shiftLeft]
    omega

theorem add?_of_lt (h : i + j < 2 ^ 64) : add? i j = some (i + j) := index?_of_lt h

theorem sub?_of_le (h : j ≤ i) : sub? i j = some (i - j) := if_pos h

theorem saturatingAdd_eq (i j : Nat) : saturatingAdd i j = min (i + j) (2 ^ 64 - 1) := by
  rw [saturatingAdd, indexLimit, Nat.one_shiftLeft]

/-! ## Lists -/

variable {α : Type}

/-- The elements from one index on and before another. -/
def part? (xs : List α) (start stop : Nat) : Option (List α) :=
  if start ≤ stop ∧ stop ≤ xs.length then some ((xs.drop start).take (stop - start)) else none

/-- Puts a window in the place of a part, of whatever length. -/
def splice? (xs : List α) (start stop : Nat) (window : List α) : Option (List α) :=
  if start ≤ stop ∧ stop ≤ xs.length then some (xs.take start ++ window ++ xs.drop stop) else none

/-- Copies a window over a part, which must be of the same length. -/
def copy? (xs : List α) (start stop : Nat) (window : List α) : Option (List α) :=
  if stop - start = window.length then splice? xs start stop window else none

/-- Cuts a list off, or fills it up, to a length, for which there is taken to be room. -/
def resize (zero : α) (xs : List α) (n : Nat) : List α := (xs.take n).rightpad n zero

/-- Exactly `size` elements: those of a part, then the filler. -/
def cut? (zero : α) (xs : List α) (start stop size : Nat) : Option (List α) :=
  (part? xs start stop).map (resize zero · size)

/-- Fills a list up that is shorter. -/
def grow (zero : α) (xs : List α) (n : Nat) : List α :=
  if xs.length < n then resize zero xs n else xs

variable {start stop : Nat} {xs window : List α} {zero : α}

theorem part?_to_end (h : start ≤ xs.length) : part? xs start xs.length = some (xs.drop start) := by
  rw [part?, if_pos ⟨h, le_rfl⟩, List.take_of_length_le (by rw [List.length_drop])]

theorem length_resize (xs : List α) (n : Nat) : (resize zero xs n).length = n :=
  Padded.length_rightpad_take zero xs n

theorem length_grow (xs : List α) (n : Nat) : (grow zero xs n).length = max xs.length n := by
  rw [grow]
  split_ifs with h
  · rw [length_resize]
    omega
  · omega

theorem get_grow (xs : List α) (n i : Nat) :
    Padded.get zero (grow zero xs n) i = Padded.get zero xs i := by
  rw [grow]
  split_ifs with h
  · rw [resize, Padded.get_rightpad, List.take_of_length_le h.le]
  · rfl

/-- A window that is inside a list already is put in place as in a padded list. -/
theorem splice?_of_le (zero : α) (h : start + window.length ≤ xs.length) :
    splice? xs start (start + window.length) window =
      some (Padded.overwrite zero xs start window) := by
  have htake : (xs.take start).rightpad start zero = xs.take start := by
    rw [List.rightpad, List.length_take, show start - min start xs.length = 0 by omega]
    exact List.append_nil _
  rw [splice?, if_pos ⟨Nat.le_add_right _ _, h⟩, Padded.overwrite, htake]

theorem splice?_grow (xs : List α) (h : start + window.length = stop) :
    splice? (grow zero xs stop) start stop window =
      some (Padded.overwrite zero xs start window) := by
  subst h
  rw [splice?_of_le zero (by rw [length_grow]; omega)]
  congr 1
  apply Padded.ext (x := zero)
  · rw [Padded.length_overwrite, Padded.length_overwrite, length_grow]
    omega
  · intro i
    rw [Padded.get_overwrite, Padded.get_overwrite, get_grow]

theorem copy?_of_length (h : start + window.length = stop) :
    copy? xs start stop window = splice? xs start stop window :=
  if_pos (by omega)

/-- A part that is cut off where the list ends is a part of the padded list. -/
theorem exists_cut? (zero : α) (xs : List α) (h : start ≤ stop) (hend : stop ≤ xs.length)
    (offset size : Nat) :
    ∃ window, cut? zero xs start stop size = some window ∧ window.length = size ∧
      (start = min offset xs.length → stop = min (offset + size) xs.length →
        window = Padded.slice zero xs offset size) := by
  refine ⟨resize zero ((xs.drop start).take (stop - start)) size, ?_, length_resize _ size, ?_⟩
  · rw [cut?, part?, if_pos ⟨h, hend⟩]
    rfl
  · intro hstart hstop
    have hdrop : xs.drop start = xs.drop offset := by
      rw [List.drop_eq_drop_iff]
      omega
    have htake : (xs.drop offset).take (stop - start) = (xs.drop offset).take size := by
      rw [List.take_eq_take_iff, List.length_drop]
      omega
    rw [resize, hdrop, htake, List.take_take, min_self, Padded.slice]

end Host

end SymbolicMachine
