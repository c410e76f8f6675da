import Ko6.Fs.KfsExhaust

set_option autoImplicit false

/-!
# Fs: the bitmaps of KFS

`kfs_alloc_bitmap` searches from the bit of the last allocation or release on and never
below it.  No bit is missed, since all bits below are set: an allocation moves the start
over set bits only, also to the end of a full bitmap, and a release below the start moves
it down.
-/

namespace Ko6.Fs

open Ko6.Lib

/-- The loop of `kfs_alloc_bitmap` on `u32_t`, in at most so many turns. -/
def allocBitmapTurns (bitmap : Bitmap) (max : BitVec 32) : Nat → BitVec 32 → Option (Nat × KfsBitmap)
  | 0, _ => none
  | turns + 1, start =>
    if start ≠ max then
      if bitmap.isSet start.toNat = false then
        some (start.toNat, ⟨bitmap.set start.toNat, start.toNat⟩)
      else allocBitmapTurns bitmap max turns (start + 1)
    else some (0, ⟨bitmap, start.toNat⟩)

/-- Calls on one bitmap of `max` bits, from `t₀` on. -/
inductive BitmapRun (max : BitVec 32) (t₀ : KfsBitmap) : KfsBitmap → Prop where
  | start : BitmapRun max t₀ t₀
  | alloc {t : KfsBitmap} : BitmapRun max t₀ t → BitmapRun max t₀ (kfsAllocBitmap t max.toNat).2
  | free {t : KfsBitmap} (bit : BitVec 32) : BitmapRun max t₀ t → bit ≠ 0 →
      BitmapRun max t₀ (kfsFreeBitmap t bit.toNat)

/-- `kfs_alloc_bitmap` ends; it returns the lowest clear bit and sets it alone, or 0 without a
change exactly when the bitmap is full. -/
structure AllocsExactly (max : BitVec 32) (t : KfsBitmap) : Prop where
  ends : ∀ turns, max.toNat - t.cur < turns →
    allocBitmapTurns t.bmp max turns (BitVec.ofNat 32 t.cur) = some (kfsAllocBitmap t max.toNat)
  lowest : ∀ i, i < max.toNat → t.bmp.isSet i = false → (∀ j, j < i → t.bmp.isSet j = true) →
    (kfsAllocBitmap t max.toNat).1 = i ∧
      ∀ j, (kfsAllocBitmap t max.toNat).2.bmp.isSet j = (decide (j = i) || t.bmp.isSet j)
  full : (kfsAllocBitmap t max.toNat).1 = 0 ↔ ∀ i, i < max.toNat → t.bmp.isSet i = true
  kept : (∀ i, i < max.toNat → t.bmp.isSet i = true) → (kfsAllocBitmap t max.toNat).2.bmp = t.bmp

/-- `kfs_free_bitmap` clears the bit alone. -/
def FreesExactly (t : KfsBitmap) : Prop :=
  ∀ (bit : BitVec 32) j, (kfsFreeBitmap t bit.toNat).bmp.isSet j =
    (!decide (j = bit.toNat) && t.bmp.isSet j)

section
variable {max : BitVec 32} {t t₀ : KfsBitmap}

/-- The loop makes the search of the bits that are left. -/
theorem allocBitmapTurns_eq (bitmap : Bitmap) (max : BitVec 32) : ∀ (turns : Nat) (start : BitVec 32),
    start.toNat ≤ max.toNat → max.toNat - start.toNat < turns →
    allocBitmapTurns bitmap max turns start = some (kfsAllocBitmap ⟨bitmap, start.toNat⟩ max.toNat)
  | 0, start, _, hturns => absurd hturns (Nat.not_lt_zero _)
  | turns + 1, start, hle, hturns => by
    rw [allocBitmapTurns, kfsAllocBitmap]
    by_cases hmax : start = max
    · rw [if_neg (not_not.mpr hmax), hmax, Nat.sub_self]
      rfl
    · have hlt : start.toNat < max.toNat :=
        Nat.lt_of_le_of_ne hle fun heq => hmax (BitVec.eq_of_toNat_eq heq)
      have hsucc : (start + 1).toNat = start.toNat + 1 := by
        have hmax := max.isLt
        rw [BitVec.toNat_add, show (1 : BitVec 32).toNat = 1 from rfl, Nat.mod_eq_of_lt (by omega)]
      have hleft : max.toNat - start.toNat = max.toNat - (start + 1).toNat + 1 := by omega
      rw [if_pos hmax, hleft, Bitmap.firstClear]
      cases hset : bitmap.isSet start.toNat with
      | false => rfl
      | true =>
        have ih := allocBitmapTurns_eq bitmap max turns (start + 1) (by omega) (by omega)
        rw [kfsAllocBitmap] at ih
        rw [if_neg (by simp), if_pos rfl, ih, hsucc]

/-- A full bitmap, or a clear bit that is found and set. -/
theorem Low.alloc_cases (h : Low t max.toNat) :
    ((∀ i, i < max.toNat → t.bmp.isSet i = true) ∧
      kfsAllocBitmap t max.toNat = (0, ⟨t.bmp, max.toNat⟩)) ∨
    ∃ r, r < max.toNat ∧ t.bmp.isSet r = false ∧
      kfsAllocBitmap t max.toNat = (r, ⟨t.bmp.set r, r⟩) ∧ Low ⟨t.bmp.set r, r⟩ max.toNat := by
  by_cases hfull : ∀ i, i < max.toNat → t.bmp.isSet i = true
  · exact .inl ⟨hfull, kfsAllocBitmap_full hfull h.cur_le⟩
  · obtain ⟨i, hnot⟩ := not_forall.mp hfull
    obtain ⟨hi, hset⟩ := Classical.not_imp.mp hnot
    exact .inr (h.alloc ⟨i, hi, Bool.eq_false_of_not_eq_true hset⟩)

/-- The bit that is found is the lowest one. -/
theorem Low.lowest (h : Low t max.toNat) {i : Nat} (hi : i < max.toNat)
    (hclear : t.bmp.isSet i = false) (hbefore : ∀ j, j < i → t.bmp.isSet j = true) :
    kfsAllocBitmap t max.toNat = (i, ⟨t.bmp.set i, i⟩) := by
  obtain ⟨r, -, hr, halloc, hlow⟩ := h.alloc ⟨i, hi, hclear⟩
  have hri : r = i := by
    rcases Nat.lt_trichotomy r i with hlt | heq | hgt
    · exact absurd (hr.symm.trans (hbefore r hlt)) (by decide)
    · exact heq
    · have hset := hlow.below i hgt
      rw [Bitmap.isSet_set, hclear, decide_eq_false (Nat.ne_of_lt hgt)] at hset
      exact absurd hset (by decide)
  rw [halloc, hri]

theorem Low.allocsExactly (h : Low t max.toNat) (hzero : t.bmp.isSet 0 = true) :
    AllocsExactly max t where
  ends := fun turns hturns => by
    have hcur : (BitVec.ofNat 32 t.cur).toNat = t.cur :=
      Nat.mod_eq_of_lt (Nat.lt_of_le_of_lt h.cur_le max.isLt)
    have heq := allocBitmapTurns_eq t.bmp max turns (BitVec.ofNat 32 t.cur)
    rw [hcur] at heq
    exact heq h.cur_le hturns
  lowest := fun i hi hclear hbefore => by
    rw [h.lowest hi hclear hbefore]
    exact ⟨rfl, fun j => Bitmap.isSet_set t.bmp i j⟩
  full := by
    rcases h.alloc_cases with ⟨hfull, halloc⟩ | ⟨r, hr, hclear, halloc, -⟩
    · rw [halloc]
      exact iff_of_true rfl hfull
    · rw [halloc]
      refine iff_of_false (fun hret => ?_) fun hfull => ?_
      · rw [show r = 0 from hret, hzero] at hclear
        exact absurd hclear (by decide)
      · exact absurd (hclear.symm.trans (hfull r hr)) (by decide)
  kept := fun hfull => by rw [kfsAllocBitmap_full hfull h.cur_le]

/-- Neither call moves the start over a clear bit, and both leave bit 0. -/
theorem BitmapRun.low (h : BitmapRun max t₀ t) (hlow : Low t₀ max.toNat)
    (hzero : t₀.bmp.isSet 0 = true) : Low t max.toNat ∧ t.bmp.isSet 0 = true := by
  induction h with
  | start => exact ⟨hlow, hzero⟩
  | alloc _ ih =>
    obtain ⟨ih, hset⟩ := ih
    rcases ih.alloc_cases with ⟨hfull, halloc⟩ | ⟨r, -, -, halloc, hlow'⟩
    · rw [halloc]
      exact ⟨⟨Nat.le_refl _, hfull⟩, hset⟩
    · rw [halloc]
      refine ⟨hlow', ?_⟩
      rw [Bitmap.isSet_set, hset, Bool.or_true]
  | free bit _ hbit ih =>
    obtain ⟨ih, hset⟩ := ih
    refine ⟨ih.free bit.toNat, ?_⟩
    have hne : 0 ≠ bit.toNat := fun heq => hbit (BitVec.eq_of_toNat_eq heq.symm)
    rw [kfsFreeBitmap, Bitmap.isSet_clear, hset, decide_eq_false hne]
    rfl

/-- For every bitmap of any size whose bits below the start and whose bit 0 are set, and after
any calls: the bits below the start are set, and the next call does what it should. -/
theorem bitmapRun_exact (hlow : Low t₀ max.toNat) (hzero : t₀.bmp.isSet 0 = true)
    (h : BitmapRun max t₀ t) : Low t max.toNat ∧ AllocsExactly max t ∧ FreesExactly t := by
  obtain ⟨hlow', hzero'⟩ := h.low hlow hzero
  exact ⟨hlow', hlow'.allocsExactly hzero', fun bit j => Bitmap.isSet_clear t.bmp bit.toNat j⟩

end

/-! ## The start -/

/-- The initializer of `bmp_page`, with `npg` pages in use. -/
def startPages (npg : Nat) : Bitmap := fun i =>
  if i < (npg - 1) / 8 then 0xFF
  else if i = (npg + 7) / 8 - 1 then BitVec.ofNat 8 ((1 <<< (1 + (npg + 7) % 8)) - 1)
  else 0

/-- The pages in use are set, and no other one. -/
theorem isSet_startPages {npg : Nat} (hnpg : 1 ≤ npg) (i : Nat) :
    (startPages npg).isSet i = decide (i < npg) := by
  have hlast : (npg + 7) / 8 - 1 = (npg - 1) / 8 := by omega
  have hmod : (npg + 7) % 8 = (npg - 1) % 8 := by omega
  have hbit : i % 8 < 8 := Nat.mod_lt i (by decide)
  rw [Bitmap.isSet_eq, startPages, hlast, hmod]
  rcases Nat.lt_trichotomy (i / 8) ((npg - 1) / 8) with hlt | heq | hgt
  · rw [if_pos hlt, decide_eq_true (by omega)]
    generalize i % 8 = k at hbit
    revert k
    decide
  · rw [if_neg (by omega), if_pos heq, Nat.one_shiftLeft, BitVec.getLsbD_ofNat,
      decide_eq_true hbit, Bool.true_and, Nat.testBit_two_pow_sub_one]
    exact decide_eq_decide.mpr (by omega)
  · rw [if_neg (by omega), if_neg (by omega), decide_eq_false (by omega)]
    exact BitVec.getLsbD_zero

theorem kfsStart_pages : kfsStart.pageMap = ⟨startPages npgu, npgu⟩ := by
  refine congrArg (fun b => (⟨b, npgu⟩ : KfsBitmap)) (funext fun i => ?_)
  rcases Nat.lt_or_ge i 4 with hlt | hge
  · revert i
    decide
  · have hle : ¬ i ≤ 2 := by omega
    have hne : i ≠ 3 := by omega
    rw [if_neg hle, if_neg hne, startPages, if_neg (by simp [npgu]; omega),
      if_neg (by simp [npgu]; omega)]

/-- The bitmap of the pages at the start. -/
theorem low_startPages : Low ⟨startPages npgu, npgu⟩ (BitVec.ofNat 32 kfsNpgDisk).toNat where
  cur_le := by decide
  below := fun i hi => by
    rw [isSet_startPages (by decide), decide_eq_true hi]

/-- The pages of a disk, after page 26 has been allocated and released. -/
theorem bitmapRun_exact_pages : ∃ t, BitmapRun (BitVec.ofNat 32 kfsNpgDisk) kfsStart.pageMap t ∧
    Low t (BitVec.ofNat 32 kfsNpgDisk).toNat ∧
    AllocsExactly (BitVec.ofNat 32 kfsNpgDisk) t ∧ FreesExactly t := by
  have hrun : BitmapRun (BitVec.ofNat 32 kfsNpgDisk) kfsStart.pageMap _ :=
    (BitmapRun.start.alloc).free 26 (by decide)
  rw [kfsStart_pages] at hrun ⊢
  have hzero : (startPages npgu).isSet 0 = true := by
    rw [isSet_startPages (by decide)]
    rfl
  exact ⟨_, hrun, bitmapRun_exact low_startPages hzero hrun⟩

end Ko6.Fs
