import Mathlib

set_option autoImplicit false

/-!
# Lib: rounding 32-bit integers by signed division

The usual `CEIL` and `FLOOR` macros of C over `int`.  The quotient of a negative
number is rounded towards zero, so that from 0x80000000 on a multiple is left
alone by `FLOOR` and moved to the next one by `CEIL`.
-/

namespace Ko6.Lib

/-- `CEIL(a,b)`: an expression over `int`. -/
def ceil (a b : Nat) : Nat :=
  (BitVec.ofNat 32 b * (BitVec.ofNat 32 a + BitVec.ofNat 32 b - 1).sdiv (BitVec.ofNat 32 b)).toNat

/-- `FLOOR(a,b)`: an expression over `int`. -/
def floor (a b : Nat) : Nat :=
  (BitVec.ofNat 32 b * (BitVec.ofNat 32 a).sdiv (BitVec.ofNat 32 b)).toNat

theorem toNat_ofNat_of_lt {x : Nat} (h : x < 2 ^ 32) : (BitVec.ofNat 32 x).toNat = x := by
  rw [BitVec.toNat_ofNat]
  exact Nat.mod_eq_of_lt h

theorem msb_ofNat_of_lt {x : Nat} (h : x < 2 ^ 31) : (BitVec.ofNat 32 x).msb = false := by
  rw [BitVec.msb_eq_false_iff_two_mul_lt, toNat_ofNat_of_lt (by omega)]
  omega

/-- Rounding down a positive `int`. -/
theorem sdivMul_of_lt {x b : Nat} (hb : b < 2 ^ 31) (hx : x < 2 ^ 31) :
    (BitVec.ofNat 32 b * (BitVec.ofNat 32 x).sdiv (BitVec.ofNat 32 b)).toNat = b * (x / b) := by
  have hxb : (BitVec.ofNat 32 x).toNat = x := toNat_ofNat_of_lt (by omega)
  have hbb : (BitVec.ofNat 32 b).toNat = b := toNat_ofNat_of_lt (by omega)
  have hle := Nat.mul_div_le x b
  rw [BitVec.sdiv_eq, msb_ofNat_of_lt hx, msb_ofNat_of_lt hb, BitVec.toNat_mul, BitVec.udiv_eq, BitVec.toNat_udiv, hxb, hbb]
  exact Nat.mod_eq_of_lt (by omega)

/-- A negative `int` is rounded towards zero, which is up. -/
theorem sdivMul_of_ge {x b : Nat} (hb : b < 2 ^ 31) (hlo : 2 ^ 31 ≤ x) (hhi : x < 2 ^ 32) :
    (BitVec.ofNat 32 b * (BitVec.ofNat 32 x).sdiv (BitVec.ofNat 32 b)).toNat =
      (2 ^ 32 - b * ((2 ^ 32 - x) / b)) % 2 ^ 32 := by
  have hxb : (BitVec.ofNat 32 x).toNat = x := toNat_ofNat_of_lt (by omega)
  have hbb : (BitVec.ofNat 32 b).toNat = b := toNat_ofNat_of_lt (by omega)
  have hmx : (BitVec.ofNat 32 x).msb = true := by
    rw [BitVec.msb_eq_true_iff_two_mul_ge, hxb]
    omega
  have hneg : (-BitVec.ofNat 32 x).toNat = 2 ^ 32 - x := by
    rw [BitVec.toNat_neg, hxb]
    exact Nat.mod_eq_of_lt (by omega)
  have hle := Nat.mul_div_le (2 ^ 32 - x) b
  rw [BitVec.sdiv_eq, hmx, msb_ofNat_of_lt hb]
  simp only []
  rw [BitVec.mul_neg, BitVec.toNat_neg, BitVec.toNat_mul, BitVec.udiv_eq, BitVec.toNat_udiv,
    hneg, hbb, Nat.mod_eq_of_lt (show b * ((2 ^ 32 - x) / b) < 2 ^ 32 by omega)]

theorem ceil_eq {a b : Nat} (hb : 0 < b) :
    ceil a b = (BitVec.ofNat 32 b *
      (BitVec.ofNat 32 (a + b - 1)).sdiv (BitVec.ofNat 32 b)).toNat := by
  have harg : BitVec.ofNat 32 a + BitVec.ofNat 32 b - 1 = BitVec.ofNat 32 (a + b - 1) := by
    apply BitVec.eq_of_toNat_eq
    have hone : (1 : BitVec 32).toNat = 1 := rfl
    rw [BitVec.toNat_sub, BitVec.toNat_add, hone, BitVec.toNat_ofNat, BitVec.toNat_ofNat,
      BitVec.toNat_ofNat]
    omega
  rw [ceil, harg]

/-- The address of a line is left alone by `FLOOR`. -/
theorem floor_of_dvd {k a : Nat} (hk : k < 32) (ha : a < 2 ^ 32) (hdvd : 2 ^ k ∣ a) :
    floor a (2 ^ k) = a := by
  rcases Nat.lt_or_ge k 31 with hk31 | hk31
  · have hb : 2 ^ k < 2 ^ 31 := Nat.pow_lt_pow_right (by decide) hk31
    rcases Nat.lt_or_ge a (2 ^ 31) with hlo | hlo
    · rw [floor, sdivMul_of_lt hb hlo]
      exact Nat.mul_div_cancel' hdvd
    · have hneg : 2 ^ k ∣ 2 ^ 32 - a :=
        Nat.dvd_sub (pow_dvd_pow 2 (by omega)) hdvd
      rw [floor, sdivMul_of_ge hb hlo ha, Nat.mul_div_cancel' hneg]
      omega
  · -- the two lines of 2^31 bytes
    have hk' : k = 31 := by omega
    subst hk'
    obtain ⟨c, rfl⟩ := hdvd
    have hc : c = 0 ∨ c = 1 := by omega
    rcases hc with rfl | rfl
    · decide
    · decide

end Ko6.Lib
