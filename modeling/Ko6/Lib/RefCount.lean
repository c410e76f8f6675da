import Mathlib.Data.List.Basic
import Mathlib.Logic.Function.Basic
import Mathlib.Tactic.Common

set_option autoImplicit false

/-!
# Lib: counting the references of a table

A table has optional references to objects.  The references to an object are counted
over the first `n` entries; when an entry is overwritten, its old object loses one and
its new object gets one.
-/

namespace Ko6.Lib

variable {α : Type} [DecidableEq α] {n i : Nat} {tab : Nat → Option α} {v : Option α} {a : α}

/-- The entries that refer to `a`. -/
def refs (n : Nat) (tab : Nat → Option α) (a : α) : Nat :=
  (List.range n).countP fun i => tab i = some a

theorem refs_succ : refs (n + 1) tab a = refs n tab a + if tab n = some a then 1 else 0 := by
  unfold refs
  rw [List.range_succ, List.countP_append, List.countP_singleton]
  simp only [decide_eq_true_eq]

theorem refs_le : refs n tab a ≤ n := by
  unfold refs
  exact Nat.le_trans List.countP_le_length (Nat.le_of_eq List.length_range)

theorem refs_pos_iff : 0 < refs n tab a ↔ ∃ i, i < n ∧ tab i = some a := by
  unfold refs
  rw [List.countP_pos_iff]
  simp only [List.mem_range, decide_eq_true_eq]

/-- The entries from `n` on do not count. -/
theorem refs_congr {tab' : Nat → Option α} (h : ∀ i, i < n → tab' i = tab i) :
    refs n tab' a = refs n tab a := by
  induction n with
  | zero => rfl
  | succ n ih =>
    rw [refs_succ, refs_succ, h n (Nat.lt_succ_self n),
      ih fun i hi => h i (Nat.lt_succ_of_lt hi)]

/-- What an entry that is overwritten takes away and brings. -/
theorem refs_update (hi : i < n) :
    refs n (Function.update tab i v) a + (if tab i = some a then 1 else 0) =
      refs n tab a + if v = some a then 1 else 0 := by
  induction n with
  | zero => exact absurd hi (Nat.not_lt_zero i)
  | succ n ih =>
    rw [refs_succ, refs_succ]
    rcases Nat.lt_succ_iff_lt_or_eq.mp hi with hlt | rfl
    · have hne : n ≠ i := (Nat.ne_of_lt hlt).symm
      have := ih hlt
      rw [Function.update_of_ne hne]
      omega
    · have hbefore : refs i (Function.update tab i v) a = refs i tab a :=
        refs_congr fun j hj => Function.update_of_ne (Nat.ne_of_lt hj) v tab
      rw [hbefore, Function.update_self]
      omega

/-- An entry is taken from `a`. -/
theorem refs_clear (hi : i < n) (h : tab i = some a) :
    refs n (Function.update tab i none) a + 1 = refs n tab a := by
  have hupdate : refs n (Function.update tab i none) a + (if tab i = some a then 1 else 0) =
      refs n tab a + if (none : Option α) = some a then 1 else 0 := refs_update hi
  rwa [if_pos h, if_neg (by simp), Nat.add_zero] at hupdate

/-- An entry is given to `a`. -/
theorem refs_set (hi : i < n) (h : tab i ≠ some a) :
    refs n (Function.update tab i (some a)) a = refs n tab a + 1 := by
  have hupdate : refs n (Function.update tab i (some a)) a + (if tab i = some a then 1 else 0) =
      refs n tab a + if some a = some a then 1 else 0 := refs_update hi
  rwa [if_neg h, if_pos rfl, Nat.add_zero] at hupdate

/-- An entry changes between other objects. -/
theorem refs_update_of_ne (hi : i < n) (h : tab i ≠ some a) (hv : v ≠ some a) :
    refs n (Function.update tab i v) a = refs n tab a := by
  have hupdate : refs n (Function.update tab i v) a + (if tab i = some a then 1 else 0) =
      refs n tab a + if v = some a then 1 else 0 := refs_update hi
  rwa [if_neg h, if_neg hv, Nat.add_zero, Nat.add_zero] at hupdate

end Ko6.Lib
