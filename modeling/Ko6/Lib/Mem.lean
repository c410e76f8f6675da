import Mathlib

set_option autoImplicit false

/-!
# Lib: byte memories, little-endian words, bit fields

The memory of a 32-bit machine as a function from addresses to bytes.  A word is
four bytes, lowest first, and a bit field is a slice of a fixed-width word; both
come with the law of reading what was written and with the frame law for what
does not overlap it.
-/

namespace Ko6.Lib

/-! ## Memory -/

/-- A memory gives the byte at each address. -/
abbrev Mem : Type := Nat → BitVec 8

namespace Mem

/-- The word at `a`. -/
def readWord (m : Mem) (a : Nat) : BitVec 32 := m (a + 3) ++ m (a + 2) ++ m (a + 1) ++ m a

/-- The memory with the word `v` at `a`. -/
def writeWord (m : Mem) (a : Nat) (v : BitVec 32) : Mem := fun b =>
  if a ≤ b ∧ b < a + 4 then v.extractLsb' (8 * (b - a)) 8 else m b

/-- `memset` of the `n` bytes from `a` on. -/
def fill (m : Mem) (a n : Nat) (c : BitVec 8) : Mem := fun b =>
  if a ≤ b ∧ b < a + n then c else m b

variable {m : Mem} {a b n : Nat} {v : BitVec 32} {c : BitVec 8}

theorem writeWord_of_outside (h : b < a ∨ a + 4 ≤ b) : m.writeWord a v b = m b :=
  if_neg (by omega)

theorem fill_of_inside (h : a ≤ b ∧ b < a + n) : m.fill a n c b = c := if_pos h

theorem fill_of_outside (h : b < a ∨ a + n ≤ b) : m.fill a n c b = m b :=
  if_neg (by omega)

/-- A word is its four bytes. -/
theorem bytes_append (v : BitVec 32) :
    (v.extractLsb' 24 8 ++ v.extractLsb' 16 8 ++ v.extractLsb' 8 8 ++ v.extractLsb' 0 8
      : BitVec 32) = v := by
  apply BitVec.eq_of_toNat_eq
  have hv := v.isLt
  simp only [BitVec.toNat_append, BitVec.extractLsb'_toNat, Nat.shiftLeft_eq,
    Nat.shiftRight_eq_div_pow]
  rw [← Nat.shiftLeft_eq, ← Nat.shiftLeft_eq, ← Nat.shiftLeft_eq,
    ← Nat.shiftLeft_add_eq_or_of_lt (by omega), ← Nat.shiftLeft_add_eq_or_of_lt (by omega),
    ← Nat.shiftLeft_add_eq_or_of_lt (by omega)]
  simp only [Nat.shiftLeft_eq]
  omega

theorem readWord_writeWord : (m.writeWord a v).readWord a = v := by
  have hb : ∀ i, i < 4 → m.writeWord a v (a + i) = v.extractLsb' (8 * i) 8 := by
    intro i hi
    rw [writeWord, if_pos (by omega), Nat.add_sub_cancel_left]
  have h0 := hb 0 (by omega)
  rw [Nat.add_zero] at h0
  rw [readWord, h0, hb 1 (by omega), hb 2 (by omega), hb 3 (by omega)]
  exact bytes_append v

/-- A word read depends on its four bytes. -/
theorem readWord_congr {m' : Mem} (h : ∀ b, a ≤ b → b < a + 4 → m' b = m b) :
    m'.readWord a = m.readWord a := by
  rw [readWord, readWord, h a (by omega) (by omega), h (a + 1) (by omega) (by omega),
    h (a + 2) (by omega) (by omega), h (a + 3) (by omega) (by omega)]

theorem readWord_writeWord_of_disjoint (h : a + 4 ≤ b ∨ b + 4 ≤ a) :
    (m.writeWord a v).readWord b = m.readWord b :=
  readWord_congr fun _ hlo hhi => writeWord_of_outside (by omega)

end Mem

/-! ## Bit fields -/

/-- The word with `v` in its `w` bits from `off` on. -/
def setField {n : Nat} (x : BitVec n) (off w : Nat) (v : BitVec w) : BitVec n :=
  (x &&& ~~~((BitVec.allOnes w).setWidth n <<< off)) ||| (v.setWidth n <<< off)

section
variable {n : Nat} {x : BitVec n} {off w off' w' : Nat} {v : BitVec w}

theorem extract_setField (h : off + w ≤ n) : (setField x off w v).extractLsb' off w = v := by
  apply BitVec.eq_of_getLsbD_eq
  intro i hi
  have hin : off + i < n := by omega
  simp [setField, hi, hin]

theorem extract_setField_of_disjoint (h : off + w ≤ off' ∨ off' + w' ≤ off) :
    (setField x off w v).extractLsb' off' w' = x.extractLsb' off' w' := by
  apply BitVec.eq_of_getLsbD_eq
  intro i hi
  simp only [setField, BitVec.getLsbD_extractLsb', hi, decide_true, Bool.true_and,
    BitVec.getLsbD_or, BitVec.getLsbD_and, BitVec.getLsbD_not, BitVec.getLsbD_shiftLeft,
    BitVec.getLsbD_setWidth, BitVec.getLsbD_allOnes]
  by_cases hlt : off' + i < off
  · simp only [hlt, decide_true, Bool.not_true, Bool.and_false, Bool.false_and, Bool.or_false,
      Bool.not_false]
    by_cases hx : x.getLsbD (off' + i)
    · simp [BitVec.lt_of_getLsbD hx]
    · simp [hx]
  · have hge : w ≤ off' + i - off := by omega
    rw [BitVec.getLsbD_of_ge v _ hge]
    by_cases hx : x.getLsbD (off' + i)
    · simp [BitVec.lt_of_getLsbD hx, Nat.not_lt.mpr hge]
    · simp [hx]

end

end Ko6.Lib
