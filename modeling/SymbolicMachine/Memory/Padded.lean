/-!
Lists read as if a filler element followed their end forever. Every access to memory, of known bytes
and of formulas alike, is one of the three operations here, and `get_slice` and `get_overwrite` say
what each of them leaves at every place.
-/

namespace SymbolicMachine.Padded

variable {α : Type} (zero : α)

/-- The element at an index; the filler past the end. -/
def get (xs : List α) (i : Nat) : α := xs.getD i zero

/-- Exactly `size` elements from `start` on. -/
def slice (xs : List α) (start size : Nat) : List α :=
  ((xs.drop start).take size).rightpad size zero

/-- Puts a window in place from `start` on; the list grows if it has to. -/
def overwrite (xs : List α) (start : Nat) (window : List α) : List α :=
  (xs.take start).rightpad start zero ++ window ++ xs.drop (start + window.length)

theorem get_of_le {xs : List α} {i : Nat} (h : xs.length ≤ i) : get zero xs i = zero := by
  simp [get, h]

theorem get_append (xs ys : List α) (i : Nat) :
    get zero (xs ++ ys) i =
      if i < xs.length then get zero xs i else get zero ys (i - xs.length) := by
  simp only [get, List.getD_eq_getElem?_getD, List.getElem?_append]
  split <;> rfl

theorem get_rightpad (xs : List α) (n i : Nat) :
    get zero (xs.rightpad n zero) i = get zero xs i := by
  rw [List.rightpad, get_append]
  split
  · rfl
  · rw [get_of_le zero (by omega : xs.length ≤ i)]
    simp only [get, List.getD_eq_getElem?_getD, List.getElem?_replicate]
    split <;> rfl

theorem length_rightpad_take (xs : List α) (n : Nat) :
    ((xs.take n).rightpad n zero).length = n := by
  rw [List.rightpad, List.length_append, List.length_replicate, List.length_take]
  omega

@[simp] theorem length_slice (xs : List α) (start size : Nat) :
    (slice zero xs start size).length = size := by
  rw [slice, List.rightpad, List.length_append, List.length_replicate, List.length_take]
  omega

theorem get_slice (xs : List α) (start size i : Nat) :
    get zero (slice zero xs start size) i = if i < size then get zero xs (start + i) else zero := by
  rw [slice, get_rightpad]
  simp only [get, List.getD_eq_getElem?_getD, List.getElem?_take, List.getElem?_drop]
  split <;> rfl

@[simp] theorem length_overwrite (xs : List α) (start : Nat) (window : List α) :
    (overwrite zero xs start window).length = max xs.length (start + window.length) := by
  rw [overwrite, List.length_append, List.length_append, length_rightpad_take, List.length_drop]
  omega

theorem get_overwrite (xs : List α) (start : Nat) (window : List α) (i : Nat) :
    get zero (overwrite zero xs start window) i =
      if start ≤ i ∧ i < start + window.length then get zero window (i - start)
      else get zero xs i := by
  rw [overwrite, get_append, get_append, List.length_append, length_rightpad_take]
  by_cases h₁ : i < start
  · rw [if_pos (by omega), if_pos h₁, if_neg (by omega), get_rightpad]
    simp [get, h₁]
  · by_cases h₂ : i < start + window.length
    · rw [if_pos h₂, if_neg h₁, if_pos ⟨by omega, h₂⟩]
    · rw [if_neg h₂, if_neg (by omega)]
      simp only [get, List.getD_eq_getElem?_getD, List.getElem?_drop]
      rw [show start + window.length + (i - (start + window.length)) = i by omega]

end SymbolicMachine.Padded
