import Mathlib

set_option autoImplicit false

/-!
# Lib: words of either byte order, areas of a memory

The memory of a machine with 32-bit addresses, and its accesses to aligned words in
little- and in big-endian order.  An area is the `n` bytes from an address on; the
two things that a memory routine does to one are `fill` and `copy`, and both can be
done in consecutive parts.  The order of the bytes matters in none of these laws: a
word that was loaded is stored as the four bytes that it came from.
-/

namespace Ko6.Lib

/-- The byte at each address. -/
abbrev Ram : Type := BitVec 32 → BitVec 8

/-- The order of the bytes in a word. -/
inductive Endian where
  | little | big
  deriving DecidableEq, Repr

/-- The place in a word of the byte at offset `i`. -/
def Endian.lane : Endian → Nat → Nat
  | .little, i => 8 * i
  | .big, i => 8 * (3 - i)

namespace Ram

/-- The word made of four bytes in memory order. -/
def ofBytes (e : Endian) (b₀ b₁ b₂ b₃ : BitVec 8) : BitVec 32 :=
  match e with
  | .little => b₃ ++ b₂ ++ b₁ ++ b₀
  | .big => b₀ ++ b₁ ++ b₂ ++ b₃

/-- The word at an aligned address. -/
def loadWord (e : Endian) (m : Ram) (a : BitVec 32) : Option (BitVec 32) :=
  if a.toNat % 4 ≠ 0 then none
  else some (ofBytes e (m a) (m (a + 1)) (m (a + 2)) (m (a + 3)))

/-- The memory with a word at an aligned address. -/
def storeWord (e : Endian) (m : Ram) (a v : BitVec 32) : Option Ram :=
  if a.toNat % 4 ≠ 0 then none
  else some fun b => if (b - a).toNat < 4 then v.extractLsb' (e.lane (b - a).toNat) 8 else m b

/-- The memory with `c` in the `n` bytes from `s` on. -/
def fill (m : Ram) (s : BitVec 32) (n : Nat) (c : BitVec 8) : Ram := fun a =>
  if (a - s).toNat < n then c else m a

/-- The memory with the `n` bytes from `s` on in the place of those from `d` on. -/
def copy (m : Ram) (d s : BitVec 32) (n : Nat) : Ram := fun a =>
  if (a - d).toNat < n then m (s + (a - d)) else m a

/-! ## Bytes of a word -/

section
variable {e : Endian}

theorem toNat_bytes (b₃ b₂ b₁ b₀ : BitVec 8) :
    (b₃ ++ b₂ ++ b₁ ++ b₀ : BitVec 32).toNat
      = b₃.toNat * 2 ^ 24 + b₂.toNat * 2 ^ 16 + b₁.toNat * 2 ^ 8 + b₀.toNat := by
  have h₀ := b₀.isLt
  have h₁ := b₁.isLt
  have h₂ := b₂.isLt
  simp only [BitVec.toNat_append]
  rw [← Nat.shiftLeft_add_eq_or_of_lt h₂, ← Nat.shiftLeft_add_eq_or_of_lt h₁,
    ← Nat.shiftLeft_add_eq_or_of_lt h₀]
  simp only [Nat.shiftLeft_eq]
  omega

theorem extractLsb'_bytes (b₃ b₂ b₁ b₀ : BitVec 8) :
    (b₃ ++ b₂ ++ b₁ ++ b₀ : BitVec 32).extractLsb' 0 8 = b₀ ∧
    (b₃ ++ b₂ ++ b₁ ++ b₀ : BitVec 32).extractLsb' 8 8 = b₁ ∧
    (b₃ ++ b₂ ++ b₁ ++ b₀ : BitVec 32).extractLsb' 16 8 = b₂ ∧
    (b₃ ++ b₂ ++ b₁ ++ b₀ : BitVec 32).extractLsb' 24 8 = b₃ := by
  have h₀ := b₀.isLt
  have h₁ := b₁.isLt
  have h₂ := b₂.isLt
  have h₃ := b₃.isLt
  refine ⟨?_, ?_, ?_, ?_⟩
  all_goals
    apply BitVec.eq_of_toNat_eq
    rw [BitVec.extractLsb'_toNat, toNat_bytes, Nat.shiftRight_eq_div_pow]
    omega

/-- A word made of bytes has the byte of each offset in its place. -/
theorem extractLsb'_ofBytes {f : Nat → BitVec 8} {i : Nat} (hi : i < 4) :
    (ofBytes e (f 0) (f 1) (f 2) (f 3)).extractLsb' (e.lane i) 8 = f i := by
  obtain ⟨l₀, l₁, l₂, l₃⟩ := extractLsb'_bytes (f 3) (f 2) (f 1) (f 0)
  obtain ⟨r₀, r₁, r₂, r₃⟩ := extractLsb'_bytes (f 0) (f 1) (f 2) (f 3)
  have hcases : i = 0 ∨ i = 1 ∨ i = 2 ∨ i = 3 := by omega
  cases e with
  | little =>
    rcases hcases with rfl | rfl | rfl | rfl
    · exact l₀
    · exact l₁
    · exact l₂
    · exact l₃
  | big =>
    rcases hcases with rfl | rfl | rfl | rfl
    · exact r₃
    · exact r₂
    · exact r₁
    · exact r₀

end

/-! ## Offsets in an area -/

section
variable {m : Ram} {a d s : BitVec 32} {c : BitVec 8} {k l n : Nat}

/-- The offset from a later beginning. -/
theorem offset_add (hk : k ≤ 2 ^ 32) :
    (a - (s + BitVec.ofNat 32 k)).toNat
      = if k ≤ (a - s).toNat then (a - s).toNat - k else (a - s).toNat + 2 ^ 32 - k := by
  have ha := a.isLt
  have hs := s.isLt
  simp only [BitVec.toNat_sub, BitVec.toNat_add, BitVec.toNat_ofNat]
  split <;> omega

theorem offset_eq_zero_iff : (a - s).toNat < 1 ↔ a = s := by
  rw [Nat.lt_one_iff]
  constructor
  · intro h
    have hzero : a - s = 0#32 := BitVec.eq_of_toNat_eq h
    rw [← BitVec.sub_add_cancel a s, hzero, BitVec.zero_add]
  · rintro rfl
    rw [BitVec.sub_self]
    rfl

/-- An address of an area that does not wrap, by its offset. -/
theorem offset_lt_iff (h : s.toNat + n ≤ 2 ^ 32) :
    (a - s).toNat < n ↔ s.toNat ≤ a.toNat ∧ a.toNat < s.toNat + n := by
  have ha := a.isLt
  have hs := s.isLt
  rw [BitVec.toNat_sub]
  omega

/-! ## Filling -/

theorem fill_zero : fill m s 0 c = m := by
  funext a
  exact if_neg (Nat.not_lt_zero _)

theorem fill_one : Function.update m s c = fill m s 1 c := by
  funext a
  by_cases ha : a = s
  · rw [ha, Function.update_self, fill, if_pos (offset_eq_zero_iff.mpr rfl)]
  · rw [Function.update_of_ne ha, fill, if_neg (mt offset_eq_zero_iff.mp ha)]

/-- An area is filled part by part. -/
theorem fill_fill (h : k + l ≤ 2 ^ 32) :
    fill (fill m s k c) (s + BitVec.ofNat 32 k) l c = fill m s (k + l) c := by
  funext a
  have hoff : (a - (s + BitVec.ofNat 32 k)).toNat < l ∨ (a - s).toNat < k
      ↔ (a - s).toNat < k + l := by
    rw [offset_add (by omega)]
    have hlt := (a - s).isLt
    split <;> omega
  unfold fill
  by_cases hin : (a - (s + BitVec.ofNat 32 k)).toNat < l
  · rw [if_pos hin, if_pos (hoff.mp (.inl hin))]
  · rw [if_neg hin]
    by_cases hfst : (a - s).toNat < k
    · rw [if_pos hfst, if_pos (hoff.mp (.inr hfst))]
    · rw [if_neg hfst, if_neg fun h => (hoff.mpr h).elim hin hfst]

/-- A word of four equal bytes. -/
theorem storeWord_fill (e : Endian) (ha : a.toNat % 4 = 0) :
    storeWord e m a (ofBytes e c c c c) = some (fill m a 4 c) := by
  rw [storeWord, if_neg (not_not.mpr ha)]
  refine congrArg some (funext fun b => ?_)
  unfold fill
  by_cases hb : (b - a).toNat < 4
  · rw [if_pos hb, if_pos hb]
    exact extractLsb'_ofBytes (f := fun _ => c) hb
  · rw [if_neg hb, if_neg hb]

/-! ## Copying -/

theorem copy_zero : copy m d s 0 = m := by
  funext a
  exact if_neg (Nat.not_lt_zero _)

theorem copy_one : Function.update m d (m s) = copy m d s 1 := by
  funext a
  by_cases ha : a = d
  · rw [ha, Function.update_self, copy, if_pos (offset_eq_zero_iff.mpr rfl), BitVec.sub_self,
      BitVec.add_zero]
  · rw [Function.update_of_ne ha, copy, if_neg (mt offset_eq_zero_iff.mp ha)]

theorem copy_of_lt (h : (a - d).toNat < n) : copy m d s n a = m (s + (a - d)) := if_pos h

theorem copy_of_le (h : n ≤ (a - d).toNat) : copy m d s n a = m a := if_neg (Nat.not_lt.mpr h)

theorem add_add_offset (a d s : BitVec 32) (k : Nat) :
    s + BitVec.ofNat 32 k + (a - (d + BitVec.ofNat 32 k)) = s + (a - d) := by
  ring

/-- An area is copied part by part when the first part is no source of the second. -/
theorem copy_copy (h : k + l ≤ 2 ^ 32)
    (hsrc : ∀ j, k ≤ j → j < k + l → k ≤ (s + BitVec.ofNat 32 j - d).toNat) :
    copy (copy m d s k) (d + BitVec.ofNat 32 k) (s + BitVec.ofNat 32 k) l = copy m d s (k + l) := by
  funext a
  have hlt := (a - d).isLt
  have hoff := offset_add (a := a) (s := d) (show k ≤ 2 ^ 32 by omega)
  by_cases hfst : (a - d).toNat < k
  · rw [if_neg (by omega)] at hoff
    rw [copy_of_le (by omega), copy_of_lt hfst, copy_of_lt (by omega)]
  · rw [if_pos (by omega)] at hoff
    by_cases hin : (a - d).toNat < k + l
    · have hread := hsrc (a - d).toNat (by omega) hin
      rw [BitVec.ofNat_toNat, BitVec.setWidth_eq] at hread
      rw [copy_of_lt (by omega), add_add_offset, copy_of_le hread, copy_of_lt hin]
    · rw [copy_of_le (by omega), copy_of_le (by omega), copy_of_le (by omega)]

/-- The same from the last part on. -/
theorem copy_copy_back (h : k + l ≤ 2 ^ 32)
    (hsrc : ∀ j, j < k → l ≤ (s + BitVec.ofNat 32 j - (d + BitVec.ofNat 32 k)).toNat) :
    copy (copy m (d + BitVec.ofNat 32 k) (s + BitVec.ofNat 32 k) l) d s k = copy m d s (k + l) := by
  funext a
  have hlt := (a - d).isLt
  have hoff := offset_add (a := a) (s := d) (show k ≤ 2 ^ 32 by omega)
  by_cases hfst : (a - d).toNat < k
  · have hread := hsrc (a - d).toNat hfst
    rw [BitVec.ofNat_toNat, BitVec.setWidth_eq] at hread
    rw [copy_of_lt hfst, copy_of_le hread, copy_of_lt (by omega)]
  · rw [if_pos (by omega)] at hoff
    rw [copy_of_le (Nat.not_lt.mp hfst)]
    by_cases hin : (a - d).toNat < k + l
    · rw [copy_of_lt (by omega), add_add_offset, copy_of_lt hin]
    · rw [copy_of_le (by omega), copy_of_le (by omega)]

/-- A word that is loaded and stored. -/
theorem storeWord_copy {e : Endian} {v : BitVec 32} (hv : loadWord e m s = some v)
    (hd : d.toNat % 4 = 0) : storeWord e m d v = some (copy m d s 4) := by
  unfold loadWord at hv
  split at hv
  · exact absurd hv (by simp)
  · obtain rfl := Option.some.inj hv
    rw [storeWord, if_neg (not_not.mpr hd)]
    refine congrArg some (funext fun b => ?_)
    unfold copy
    by_cases hb : (b - d).toNat < 4
    · rw [if_pos hb, if_pos hb]
      have hbyte := extractLsb'_ofBytes (e := e) (f := fun i => m (s + BitVec.ofNat 32 i)) hb
      rw [BitVec.ofNat_toNat, BitVec.setWidth_eq] at hbyte
      simpa using hbyte
    · rw [if_neg hb, if_neg hb]

theorem loadWord_isSome {e : Endian} (hs : s.toNat % 4 = 0) : ∃ v, loadWord e m s = some v :=
  ⟨_, if_neg (not_not.mpr hs)⟩

end

end Ram

end Ko6.Lib
