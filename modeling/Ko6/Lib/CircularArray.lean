import Mathlib.Data.List.Range
import Mathlib.Logic.Function.Basic
import Mathlib.Tactic.Common

set_option autoImplicit false

/-!
# Lib: a circular array with two indices

The array has `n` cells.  The cells in use go from the index `r` to the one before the
index `w`, round the end of the array; equal indices say that none is in use, so that one
cell always stays free.  A cell is taken into use at `w` and given back at `r`.
-/

namespace Ko6.Lib

variable {α : Type}

/-- The next index. -/
def circNext (n i : Nat) : Nat := (i + 1) % n

/-- The number of the cells in use. -/
def circUsed (n r w : Nat) : Nat := (w + n - r) % n

/-- The cells in use, in order. -/
def circContents (data : Nat → α) (n r w : Nat) : List α :=
  (List.range (circUsed n r w)).map fun k => data ((r + k) % n)

section
variable {data : Nat → α} {n r w i : Nat} {c : α}

theorem circNext_lt (hi : i < n) : circNext n i < n := Nat.mod_lt _ (by omega)

theorem circNext_of_lt (h : i + 1 < n) : circNext n i = i + 1 := Nat.mod_eq_of_lt h

theorem circNext_last (h : i + 1 = n) : circNext n i = 0 := by
  rw [circNext, h, Nat.mod_self]

theorem circUsed_of_le (hr : r ≤ w) (hw : w < n) : circUsed n r w = w - r := by
  rw [circUsed, show w + n - r = w - r + n by omega, Nat.add_mod_right]
  exact Nat.mod_eq_of_lt (by omega)

theorem circUsed_of_lt (hw : w < r) (hr : r < n) : circUsed n r w = w + n - r :=
  Nat.mod_eq_of_lt (by omega)

theorem circUsed_lt (hr : r < n) : circUsed n r w < n := Nat.mod_lt _ (by omega)

/-- Equal indices say that no cell is in use. -/
theorem circUsed_eq_zero_iff (hr : r < n) (hw : w < n) : circUsed n r w = 0 ↔ r = w := by
  rcases Nat.lt_or_ge w r with hlt | hge
  · rw [circUsed_of_lt hlt hr]
    omega
  · rw [circUsed_of_le hge hw]
    omega

/-- All cells but one are in use when the next index after `w` is `r`. -/
theorem circUsed_eq_pred_iff (hr : r < n) (hw : w < n) :
    circUsed n r w = n - 1 ↔ circNext n w = r := by
  rcases Nat.lt_or_ge (w + 1) n with hlast | hlast
  · rw [circNext_of_lt hlast]
    rcases Nat.lt_or_ge w r with hlt | hge
    · rw [circUsed_of_lt hlt hr]
      omega
    · rw [circUsed_of_le hge hw]
      omega
  · rw [circNext_last (by omega), circUsed_of_le (by omega) hw]
    omega

/-- One more cell in use at the end. -/
theorem circUsed_push (hr : r < n) (hw : w < n) (hroom : circNext n w ≠ r) :
    circUsed n r (circNext n w) = circUsed n r w + 1 := by
  rcases Nat.lt_or_ge (w + 1) n with hlast | hlast
  · rw [circNext_of_lt hlast] at hroom ⊢
    rcases Nat.lt_or_ge w r with hlt | hge
    · rw [circUsed_of_lt (by omega) hr, circUsed_of_lt hlt hr]
      omega
    · rw [circUsed_of_le (by omega) hlast, circUsed_of_le hge hw]
      omega
  · rw [circNext_last (by omega)] at hroom ⊢
    rw [circUsed_of_lt (by omega) hr, circUsed_of_le (by omega) hw]
    omega

/-- One cell less in use at the beginning. -/
theorem circUsed_pull (hr : r < n) (hw : w < n) (hne : r ≠ w) :
    circUsed n r w = circUsed n (circNext n r) w + 1 := by
  rcases Nat.lt_or_ge (r + 1) n with hlast | hlast
  · rw [circNext_of_lt hlast]
    rcases Nat.lt_or_ge w r with hlt | hge
    · rw [circUsed_of_lt hlt hr, circUsed_of_lt (by omega) hlast]
      omega
    · rw [circUsed_of_le hge hw, circUsed_of_le (by omega) hw]
      omega
  · rw [circNext_last (by omega), circUsed_of_lt (by omega) hr, circUsed_of_le (Nat.zero_le w) hw]
    omega

@[simp] theorem length_circContents : (circContents data n r w).length = circUsed n r w := by
  rw [circContents, List.length_map, List.length_range]

theorem circContents_self (hr : r < n) : circContents data n r r = [] := by
  rw [← List.length_eq_zero_iff, length_circContents, circUsed_eq_zero_iff hr hr]

theorem circContents_eq_nil_iff (hr : r < n) (hw : w < n) :
    circContents data n r w = [] ↔ r = w := by
  rw [← List.length_eq_zero_iff, length_circContents, circUsed_eq_zero_iff hr hw]

/-- The index after the cells in use is `w`. -/
theorem circEnd (hr : r < n) (hw : w < n) : (r + circUsed n r w) % n = w := by
  rcases Nat.lt_or_ge w r with hlt | hge
  · rw [circUsed_of_lt hlt hr, show r + (w + n - r) = w + n by omega, Nat.add_mod_right]
    exact Nat.mod_eq_of_lt hw
  · rw [circUsed_of_le hge hw, show r + (w - r) = w by omega]
    exact Nat.mod_eq_of_lt hw

/-- A cell in use is not the one at `w`. -/
theorem circIndex_ne (hr : r < n) (hw : w < n) {k : Nat} (hk : k < circUsed n r w) :
    (r + k) % n ≠ w := by
  intro heq
  have hend := circEnd hr hw
  have hlt := circUsed_lt (w := w) hr
  -- two indices less than `n` apart
  have hwrap : ∀ j, j < n → (r + j) % n = if r + j < n then r + j else r + j - n := by
    intro j hj
    by_cases h : r + j < n
    · rw [if_pos h, Nat.mod_eq_of_lt h]
    · rw [if_neg h, Nat.mod_eq_sub_mod (by omega), Nat.mod_eq_of_lt (by omega)]
  rw [hwrap k (by omega)] at heq
  rw [hwrap _ hlt] at hend
  split at heq <;> split at hend <;> omega

/-- A value put at `w` goes to the end of the contents. -/
theorem circContents_push (hr : r < n) (hw : w < n) (hroom : circNext n w ≠ r) :
    circContents (Function.update data w c) n r (circNext n w) = circContents data n r w ++ [c] := by
  rw [circContents, circUsed_push hr hw hroom, List.range_succ, List.map_append]
  congr 1
  · refine List.map_congr_left fun k hk => ?_
    exact Function.update_of_ne (circIndex_ne hr hw (List.mem_range.mp hk)) c data
  · rw [List.map_singleton, circEnd hr hw, Function.update_self]

/-- The first value of the contents is the one at `r`. -/
theorem circContents_pull (hr : r < n) (hw : w < n) (hne : r ≠ w) :
    circContents data n r w = data r :: circContents data n (circNext n r) w := by
  rw [circContents, circUsed_pull hr hw hne, List.range_succ_eq_map, List.map_cons, Nat.add_zero,
    Nat.mod_eq_of_lt hr, List.map_map, circContents]
  congr 1
  refine List.map_congr_left fun k _ => congrArg data ?_
  rw [circNext, Nat.mod_add_mod]
  congr 1
  omega

end

end Ko6.Lib
