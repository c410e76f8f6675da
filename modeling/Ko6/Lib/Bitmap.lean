import Ko6.Lib.Mem

set_option autoImplicit false

/-!
# Lib: bitmaps

A bitmap is an array of bytes; bit `i` is bit `i % 8` of byte `i / 8`.  Its bits are
read, set and cleared one at a time, and a search returns the first clear bit of an
interval.
-/

namespace Ko6.Lib

/-- An array of bytes. -/
abbrev Bitmap : Type := Nat → BitVec 8

namespace Bitmap

/-- The mask of a bit in its byte. -/
def mask (i : Nat) : BitVec 8 := 1#8 <<< (i % 8)

/-- The bit is 1. -/
def isSet (b : Bitmap) (i : Nat) : Bool := b (i / 8) &&& mask i ≠ 0

/-- The bitmap with bit `i` set. -/
def set (b : Bitmap) (i : Nat) : Bitmap := Function.update b (i / 8) (b (i / 8) ||| mask i)

/-- The bitmap with bit `i` cleared. -/
def clear (b : Bitmap) (i : Nat) : Bitmap := Function.update b (i / 8) (b (i / 8) &&& ~~~ mask i)

variable {b : Bitmap} {i j : Nat}

theorem getLsbD_mask (i k : Nat) : (mask i).getLsbD k = decide (k = i % 8) := by
  have hlt : i % 8 < 8 := Nat.mod_lt i (by omega)
  unfold mask
  rw [BitVec.getLsbD_shiftLeft, BitVec.getLsbD_one]
  by_cases hk : k = i % 8
  · subst hk
    simp [hlt]
  · simp only [hk, decide_false]
    by_cases hk8 : k < 8
    · by_cases hlt' : k < i % 8
      · simp [hlt']
      · have hne : k - i % 8 ≠ 0 := by omega
        simp [hne]
    · simp [hk8]

/-- A bit as a bit of its byte. -/
theorem isSet_eq (b : Bitmap) (i : Nat) : b.isSet i = (b (i / 8)).getLsbD (i % 8) := by
  have hlt : i % 8 < 8 := Nat.mod_lt i (by omega)
  unfold isSet
  by_cases hbit : (b (i / 8)).getLsbD (i % 8) = true
  · rw [hbit, decide_eq_true_eq]
    intro hzero
    have hget := congrArg (fun v : BitVec 8 => v.getLsbD (i % 8)) hzero
    simp [getLsbD_mask, hbit] at hget
  · rw [Bool.not_eq_true] at hbit
    rw [hbit, decide_eq_false_iff_not, not_not]
    apply BitVec.eq_of_getLsbD_eq
    intro k hk
    have hzero : (0 : BitVec 8).getLsbD k = false := BitVec.getLsbD_zero
    rw [BitVec.getLsbD_and, getLsbD_mask, hzero]
    by_cases hki : k = i % 8
    · rw [hki, hbit, Bool.false_and]
    · simp [hki]

theorem eq_of_byte_bit (hdiv : j / 8 = i / 8) (hmod : j % 8 = i % 8) : j = i := by omega

theorem isSet_set (b : Bitmap) (i j : Nat) : (b.set i).isSet j = (decide (j = i) || b.isSet j) := by
  rw [isSet_eq, isSet_eq, set]
  by_cases hdiv : j / 8 = i / 8
  · rw [hdiv, Function.update_self, BitVec.getLsbD_or, getLsbD_mask, Bool.or_comm]
    by_cases hmod : j % 8 = i % 8
    · rw [decide_eq_true hmod, decide_eq_true (eq_of_byte_bit hdiv hmod)]
    · have hne : j ≠ i := fun he => hmod (by rw [he])
      rw [decide_eq_false hmod, decide_eq_false hne]
  · have hne : j ≠ i := fun he => hdiv (by rw [he])
    rw [Function.update_of_ne hdiv, decide_eq_false hne, Bool.false_or]

theorem isSet_clear (b : Bitmap) (i j : Nat) :
    (b.clear i).isSet j = (!decide (j = i) && b.isSet j) := by
  have hlt : j % 8 < 8 := Nat.mod_lt j (by omega)
  rw [isSet_eq, isSet_eq, clear]
  by_cases hdiv : j / 8 = i / 8
  · rw [hdiv, Function.update_self, BitVec.getLsbD_and, BitVec.getLsbD_not, getLsbD_mask,
      decide_eq_true hlt, Bool.true_and, Bool.and_comm]
    by_cases hmod : j % 8 = i % 8
    · rw [decide_eq_true hmod, decide_eq_true (eq_of_byte_bit hdiv hmod)]
    · have hne : j ≠ i := fun he => hmod (by rw [he])
      rw [decide_eq_false hmod, decide_eq_false hne]
  · have hne : j ≠ i := fun he => hdiv (by rw [he])
    rw [Function.update_of_ne hdiv, decide_eq_false hne, Bool.not_false, Bool.true_and]

/-! ## The search -/

/-- The first clear bit among the `n` bits from `start` on. -/
def firstClear (b : Bitmap) : Nat → Nat → Option Nat
  | 0, _ => none
  | n + 1, start => if b.isSet start then firstClear b n (start + 1) else some start

theorem firstClear_eq_some {n start r : Nat} (h : b.firstClear n start = some r) :
    start ≤ r ∧ r < start + n ∧ b.isSet r = false ∧ ∀ k, start ≤ k → k < r → b.isSet k = true := by
  induction n generalizing start with
  | zero => exact absurd h (by simp [firstClear])
  | succ n ih =>
    rw [firstClear] at h
    by_cases hset : b.isSet start = true
    · rw [if_pos hset] at h
      obtain ⟨hle, hlt, hclear, hbefore⟩ := ih h
      refine ⟨by omega, by omega, hclear, fun k hlo hhi => ?_⟩
      rcases Nat.eq_or_lt_of_le hlo with rfl | hlo
      · exact hset
      · exact hbefore k hlo hhi
    · rw [if_neg hset, Option.some.injEq] at h
      rw [← h]
      exact ⟨Nat.le_refl _, by omega, Bool.eq_false_iff.mpr hset, fun k hlo hhi => by omega⟩

theorem firstClear_eq_none {n start : Nat} :
    b.firstClear n start = none ↔ ∀ k, start ≤ k → k < start + n → b.isSet k = true := by
  induction n generalizing start with
  | zero => exact ⟨fun _ k hlo hhi => by omega, fun _ => rfl⟩
  | succ n ih =>
    rw [firstClear]
    by_cases hset : b.isSet start = true
    · rw [if_pos hset, ih]
      constructor
      · intro h k hlo hhi
        rcases Nat.eq_or_lt_of_le hlo with rfl | hlo
        · exact hset
        · exact h k hlo (by omega)
      · exact fun h k hlo hhi => h k (by omega) (by omega)
    · rw [if_neg hset]
      exact ⟨fun h => absurd h (by simp), fun h => absurd (h start (Nat.le_refl _) (by omega)) hset⟩

end Bitmap

end Ko6.Lib
