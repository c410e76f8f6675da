import Ko6.Fs.Fs1Read

set_option autoImplicit false

/-!
# Fs: reads at the end of a file on fs1

`fs1_read` clips a request when `offset + size` passes the end of the file, and
stops after the block of its last byte.  Both are sums of 32 bits.  When the first
one wraps, nothing is clipped; when `end_lba` is the last number of all, the loop
never ends; when it wraps, the blocks at the start of the disk are read.
`fs1Read_inBounds_iff` gives the files, offsets and sizes for which a read stays
inside the file.
-/

namespace Ko6.Fs

open Ko6.Lib Ko6.Common

/-! ## Model -/

section
variable (blockioGet : BitVec 32 → BitVec 32 → Option Block) (minor : SbPtr → BitVec 32)

/-- The blocks that the loop of `fs1_read` asks for in `fuel` turns. -/
def fs1ReadLoopAsks (dev endLba : BitVec 32) : Nat → BitVec 32 → List (BitVec 32)
  | 0, _ => []
  | fuel + 1, lba =>
    if lba ≤ endLba then
      match blockioGet dev lba with
      | none => [lba]
      | some _ => lba :: fs1ReadLoopAsks dev endLba fuel (lba + 1)
    else []

/-- The size after the clipping test of `fs1_read`. -/
def fs1ReadSize (ent : Fs1Inode) (offset size : BitVec 32) : BitVec 32 :=
  if offset + size > ent.size then ent.size - offset else size

/-- `start_lba` and `end_lba`. -/
def fs1StartLba (ent : Fs1Inode) (offset : BitVec 32) : BitVec 32 := ent.lba + offset / blockSize

def fs1EndLba (ent : Fs1Inode) (offset size : BitVec 32) : BitVec 32 :=
  ent.lba + (offset + fs1ReadSize ent offset size - 1) / blockSize

/-- The blocks that `fs1_read` asks for. -/
def fs1ReadAsks (fuel : Nat) (inode : VfsInode) (offset size : BitVec 32) : List (BitVec 32) :=
  match inode.data with
  | none => []
  | some ent =>
    if offset ≥ ent.size then []
    else fs1ReadLoopAsks blockioGet (minor inode.sb) (fs1EndLba ent offset size) fuel
      (fs1StartLba ent offset)

end

/-! ## Inside the file -/

/-- What a read may return and copy: what is left of the file, up to the size. -/
def readBound (ent : Fs1Inode) (offset size : BitVec 32) : Nat :=
  min size.toNat (ent.size.toNat - offset.toNat)

/-- Whatever the device holds, and however long it has run, a read has asked for
blocks of the file only; when it returns, it returns `-EIO` or no more than its bound,
and it has written no other byte of memory. -/
structure StaysInFile (ent : Fs1Inode) (offset size : BitVec 32) : Prop where
  asks : ∀ blockioGet minor fuel inode, inode.data = some ent →
    ∀ lba ∈ fs1ReadAsks blockioGet minor fuel inode offset size,
      ent.lba.toNat ≤ lba.toNat ∧
        lba.toNat < ent.lba.toNat + (ent.size.toNat + 4095) / 4096
  copies : ∀ blockioGet minor fuel inode buffer m ret m', inode.data = some ent →
    fs1Read blockioGet minor fuel inode buffer offset size m = some (ret, m') →
      (ret = -eio ∨ ret.toNat ≤ readBound ent offset size) ∧
      ∀ b, b < buffer ∨ buffer + readBound ent offset size ≤ b → m' b = m b

/-- The block of the last byte that a read takes for its own: the sum wraps at
`2 ^ 32`, and is clipped at the end `f` of the file when it does not wrap. -/
def lastBlock (f o z : Nat) : Nat :=
  if o + z < 2 ^ 32 then (min (o + z) f - 1) / 4096 else (o + z - 1) % 2 ^ 32 / 4096

/-- No byte is left; or the block numbers wrap so that none is asked for; or nothing
wraps; or the sum of offset and size wraps into the block where the read begins, and
that block is not cut by the end of the file. -/
def InBounds (l f o z : Nat) : Prop :=
  f ≤ o ∨ (l + lastBlock f o z) % 2 ^ 32 < (l + o / 4096) % 2 ^ 32 ∨
    l + lastBlock f o z < 2 ^ 32 - 1 ∧
      (o + z < 2 ^ 32 ∨ lastBlock f o z = o / 4096 ∧ (o / 4096 + 1) * 4096 ≤ f)

instance (l f o z : Nat) : Decidable (InBounds l f o z) :=
  inferInstanceAs (Decidable (_ ∨ _ ∨ _ ∧ (_ ∨ _ ∧ _)))

section
variable {ent : Fs1Inode} {offset size : BitVec 32}

/-! ## The numbers of a read -/

theorem fs1ReadSize_toNat (hlt : offset.toNat < ent.size.toNat) (hpos : 1 ≤ size.toNat) :
    (fs1ReadSize ent offset size).toNat
      = if offset.toNat + size.toNat < 2 ^ 32 then readBound ent offset size else size.toNat := by
  have hz := size.isLt
  have hf := ent.size.isLt
  have hleft : (ent.size - offset).toNat = ent.size.toNat - offset.toNat :=
    BitVec.toNat_sub_of_le (by rw [BitVec.le_def]; omega)
  unfold fs1ReadSize readBound
  by_cases hwrap : offset.toNat + size.toNat < 2 ^ 32
  · have hsum : (offset + size).toNat = offset.toNat + size.toNat := BitVec.toNat_add_of_lt hwrap
    rw [if_pos hwrap]
    by_cases hclip : offset + size > ent.size
    · rw [if_pos hclip, hleft]
      rw [gt_iff_lt, BitVec.lt_def, hsum] at hclip
      omega
    · rw [if_neg hclip]
      rw [gt_iff_lt, BitVec.lt_def, hsum] at hclip
      omega
  · -- the sum wraps to less than the offset
    have hclip : ¬ offset + size > ent.size := by
      rw [gt_iff_lt, BitVec.lt_def, BitVec.toNat_add]
      omega
    rw [if_neg hwrap, if_neg hclip]

theorem fs1StartLba_toNat (ent : Fs1Inode) (offset : BitVec 32) :
    (fs1StartLba ent offset).toNat = (ent.lba.toNat + offset.toNat / 4096) % 2 ^ 32 := by
  rw [fs1StartLba, BitVec.toNat_add, BitVec.toNat_udiv]
  rfl

theorem fs1EndLba_toNat (hlt : offset.toNat < ent.size.toNat) (hpos : 1 ≤ size.toNat) :
    (fs1EndLba ent offset size).toNat
      = (ent.lba.toNat + lastBlock ent.size.toNat offset.toNat size.toNat) % 2 ^ 32 := by
  have hz := size.isLt
  have hf := ent.size.isLt
  have hclipped := fs1ReadSize_toNat hlt hpos
  have hlast : (offset + fs1ReadSize ent offset size - 1).toNat / 4096
      = lastBlock ent.size.toNat offset.toNat size.toNat := by
    have hone : (1 : BitVec 32).toNat = 1 := rfl
    rw [lastBlock, BitVec.toNat_sub, BitVec.toNat_add, hclipped, hone, readBound]
    split <;> omega
  rw [fs1EndLba, BitVec.toNat_add, BitVec.toNat_udiv]
  exact congrArg (fun n => (ent.lba.toNat + n) % 2 ^ 32) hlast

theorem lastBlock_lt (f o z : Nat) (hf : f < 2 ^ 32) : lastBlock f o z < 2 ^ 20 := by
  unfold lastBlock
  split <;> omega

/-- Up to a block, a read that does not wrap ends in the file. -/
theorem lastBlock_of_lt {f o z : Nat} (hof : o < f) (hpos : 1 ≤ z) (h : o + z < 2 ^ 32) :
    o / 4096 ≤ lastBlock f o z ∧ lastBlock f o z < (f + 4095) / 4096 := by
  rw [lastBlock, if_pos h]
  omega

/-- One that wraps ends at its own block or before, or in the last block of all. -/
theorem lastBlock_of_ge {f o z : Nat} (hof : o < f) (hz : z < 2 ^ 32) (hf : f < 2 ^ 32)
    (h : 2 ^ 32 ≤ o + z) : lastBlock f o z ≤ o / 4096 ∨
      lastBlock f o z = 2 ^ 20 - 1 ∧ o + z = 2 ^ 32 := by
  rw [lastBlock, if_neg (by omega)]
  omega

/-! ## The loop -/

section
variable {blockioGet : BitVec 32 → BitVec 32 → Option Block} {dev startLba endLba lbaOffset : BitVec 32}
  {buffer : Nat}

/-- While the loop can end, it asks for blocks up to `end_lba`. -/
theorem fs1ReadLoopAsks_le (hend : endLba.toNat < 2 ^ 32 - 1) : ∀ (fuel : Nat) (lba x : BitVec 32),
    x ∈ fs1ReadLoopAsks blockioGet dev endLba fuel lba →
      lba.toNat ≤ x.toNat ∧ x.toNat ≤ endLba.toNat := by
  intro fuel
  induction fuel with
  | zero => exact fun lba x hx => absurd hx (by simp [fs1ReadLoopAsks])
  | succ fuel ih =>
    intro lba x hx
    rw [fs1ReadLoopAsks] at hx
    by_cases hmore : lba ≤ endLba
    · rw [if_pos hmore] at hx
      rw [BitVec.le_def] at hmore
      have hnext : (lba + 1).toNat = lba.toNat + 1 := by
        have hone : (1 : BitVec 32).toNat = 1 := rfl
        rw [BitVec.toNat_add_of_lt (by omega), hone]
      cases hget : blockioGet dev lba with
      | none =>
        rw [hget, List.mem_singleton] at hx
        rw [hx]
        omega
      | some page =>
        rw [hget, List.mem_cons] at hx
        rcases hx with rfl | hx
        · omega
        · have := ih (lba + 1) x hx
          omega
    · rw [if_neg hmore] at hx
      exact absurd hx (by simp)

/-- The loop returns `-EIO` or at most the size, and writes only the bytes that are
still to be copied. -/
theorem fs1ReadLoop_copies : ∀ (fuel : Nat) (lba copied : BitVec 32) (m m' : Mem) (ret : BitVec 32),
    copied.toNat ≤ size.toNat →
    fs1ReadLoop blockioGet dev startLba endLba lbaOffset size buffer fuel lba copied m
      = some (ret, m') →
    (ret = -eio ∨ ret.toNat ≤ size.toNat) ∧
      ∀ b, b < buffer + copied.toNat ∨ buffer + size.toNat ≤ b → m' b = m b := by
  intro fuel
  induction fuel with
  | zero => exact fun lba copied m m' ret _ h => absurd h (by simp [fs1ReadLoop])
  | succ fuel ih =>
    intro lba copied m m' ret hle h
    rw [fs1ReadLoop] at h
    by_cases hmore : lba ≤ endLba
    · rw [if_pos hmore] at h
      cases hget : blockioGet dev lba with
      | none =>
        simp only [hget, Option.some.injEq, Prod.mk.injEq] at h
        obtain ⟨rfl, rfl⟩ := h
        refine ⟨?_, fun b _ => rfl⟩
        by_cases h0 : copied ≠ 0
        · rw [if_pos h0]
          exact .inr hle
        · rw [if_neg h0]
          exact .inl rfl
      | some page =>
        simp only [hget] at h
        have hleft : (size - copied).toNat = size.toNat - copied.toNat := BitVec.toNat_sub_of_le hle
        generalize (if lba = startLba then lbaOffset else 0) = pageOffset at h
        -- no more is copied than is left
        have hcopy : (if blockSize - pageOffset > size - copied then size - copied
            else blockSize - pageOffset).toNat ≤ size.toNat - copied.toNat := by
          by_cases hclip : blockSize - pageOffset > size - copied
          · rw [if_pos hclip, hleft]
          · rw [if_neg hclip]
            rw [gt_iff_lt, BitVec.lt_def, hleft] at hclip
            omega
        generalize (if blockSize - pageOffset > size - copied then size - copied
            else blockSize - pageOffset) = toCopy at h hcopy
        have hz := size.isLt
        have hsum : (copied + toCopy).toNat = copied.toNat + toCopy.toNat :=
          BitVec.toNat_add_of_lt (by omega)
        obtain ⟨hret, hframe⟩ := ih _ _ _ _ _ (by omega) h
        refine ⟨hret, fun b hb => ?_⟩
        rw [hframe b (by omega)]
        exact if_neg (by omega)
    · rw [if_neg hmore, Option.some.injEq, Prod.mk.injEq] at h
      obtain ⟨rfl, rfl⟩ := h
      exact ⟨.inr hle, fun b _ => rfl⟩

/-- The loop on a device whose blocks are all ones, when it can end: it copies what the
blocks from the first to the last hold, up to the size. -/
theorem fs1ReadLoop_ones (m : Mem) (hget : ∀ lba, blockioGet dev lba = some fun _ => 1)
    (hend : endLba.toNat < 2 ^ 32 - 1) (hoffset : lbaOffset.toNat < 4096) :
    ∀ (fuel : Nat) (lba copied : BitVec 32), startLba.toNat ≤ lba.toNat →
      lba.toNat ≤ endLba.toNat + 1 → endLba.toNat + 2 ≤ lba.toNat + fuel →
      (lba = startLba → lba ≤ endLba) → copied.toNat ≤ size.toNat →
      ∃ ret : BitVec 32,
        fs1ReadLoop blockioGet dev startLba endLba lbaOffset size buffer fuel lba copied
          (memcpy m buffer (fun _ => 1) copied.toNat)
          = some (ret, memcpy m buffer (fun _ => 1) ret.toNat) ∧
        ret.toNat = min size.toNat (copied.toNat + (4096 * (endLba.toNat + 1 - lba.toNat)
          - if lba = startLba then lbaOffset.toNat else 0)) := by
  have hz := size.isLt
  have hblock : blockSize.toNat = 4096 := rfl
  intro fuel
  induction fuel with
  | zero =>
    intro lba copied _ _ hfuel
    omega
  | succ fuel ih =>
    intro lba copied hlo hhi hfuel hfirst hle
    rw [fs1ReadLoop]
    by_cases hmore : lba ≤ endLba
    · rw [if_pos hmore]
      rw [BitVec.le_def] at hmore
      simp only [hget]
      have hcut : (if lba = startLba then lbaOffset else 0).toNat
          = if lba = startLba then lbaOffset.toNat else 0 := by
        split <;> rfl
      have hcutLt : (if lba = startLba then lbaOffset else 0).toNat < blockSize.toNat := by
        rw [hcut, hblock]
        split <;> omega
      obtain ⟨toCopy, hcopy, hcopyNat⟩ := toCopy_spec hcutLt hle
      rw [hcopy, memcpy_memcpy m (fun _ => 1) _ fun i _ => rfl]
      rw [hblock, hcut] at hcopyNat
      have hsum : (copied + toCopy).toNat = copied.toNat + toCopy.toNat :=
        BitVec.toNat_add_of_lt (by omega)
      have hnext : (lba + 1).toNat = lba.toNat + 1 := by
        have hone : (1 : BitVec 32).toNat = 1 := rfl
        rw [BitVec.toNat_add_of_lt (by omega), hone]
      have hne : lba + 1 ≠ startLba := by
        rintro rfl
        omega
      rw [← hsum]
      obtain ⟨ret, hrun, hret⟩ := ih (lba + 1) (copied + toCopy) (by omega) (by omega) (by omega)
        (fun h => absurd h hne) (by omega)
      refine ⟨ret, hrun, ?_⟩
      rw [hret, if_neg hne, hsum, hnext, hcopyNat]
      split <;> omega
    · -- past the last block
      have hne : lba ≠ startLba := fun h => hmore (hfirst h)
      rw [if_neg hmore]
      rw [BitVec.le_def] at hmore
      refine ⟨copied, rfl, ?_⟩
      rw [if_neg hne]
      omega

theorem le_allOnes (lba : BitVec 32) : lba ≤ BitVec.allOnes 32 := by
  have hlt := lba.isLt
  rw [BitVec.le_def, BitVec.toNat_allOnes]
  omega

/-- With the last number of all as `end_lba`, the loop comes to every block. -/
theorem fs1ReadLoopAsks_all {blockioGet : BitVec 32 → BitVec 32 → Option Block} (dev : BitVec 32)
    (hget : ∀ lba, (blockioGet dev lba).isSome) :
    ∀ (n : Nat) (lba : BitVec 32),
      lba + BitVec.ofNat 32 n ∈ fs1ReadLoopAsks blockioGet dev (BitVec.allOnes 32) (n + 1) lba := by
  intro n
  induction n with
  | zero =>
    intro lba
    obtain ⟨page, hpage⟩ := Option.isSome_iff_exists.mp (hget lba)
    rw [fs1ReadLoopAsks, if_pos (le_allOnes lba), hpage]
    simp
  | succ n ih =>
    intro lba
    obtain ⟨page, hpage⟩ := Option.isSome_iff_exists.mp (hget lba)
    rw [fs1ReadLoopAsks, if_pos (le_allOnes lba), hpage]
    refine List.mem_cons_of_mem _ ?_
    have hsum : lba + BitVec.ofNat 32 (n + 1) = lba + 1 + BitVec.ofNat 32 n := by
      rw [BitVec.add_assoc, Nat.add_comm, BitVec.ofNat_add]
      rfl
    rw [hsum]
    exact ih (lba + 1)

end

/-! ## One read -/

section
variable {blockioGet : BitVec 32 → BitVec 32 → Option Block} {minor : SbPtr → BitVec 32}
  {inode : VfsInode} {buffer fuel : Nat} {m m' : Mem} {ret : BitVec 32}

theorem fs1ReadAsks_eq (hdata : inode.data = some ent) (hlt : offset.toNat < ent.size.toNat) :
    fs1ReadAsks blockioGet minor fuel inode offset size
      = fs1ReadLoopAsks blockioGet (minor inode.sb) (fs1EndLba ent offset size) fuel
          (fs1StartLba ent offset) := by
  have hmore : ¬ offset ≥ ent.size := by
    rw [ge_iff_le, BitVec.le_def]
    omega
  simp only [fs1ReadAsks, hdata]
  exact if_neg hmore

theorem fs1Read_eq (hdata : inode.data = some ent) (hlt : offset.toNat < ent.size.toNat) :
    fs1Read blockioGet minor fuel inode buffer offset size m
      = fs1ReadLoop blockioGet (minor inode.sb) (fs1StartLba ent offset)
          (fs1EndLba ent offset size) (offset % blockSize) (fs1ReadSize ent offset size) buffer fuel
          (fs1StartLba ent offset) 0 m := by
  have hmore : ¬ offset ≥ ent.size := by
    rw [ge_iff_le, BitVec.le_def]
    omega
  rw [fs1Read, hdata, Option.bind_eq_bind, Option.bind_some]
  exact if_neg hmore

/-- At the end of the file or behind it nothing is read. -/
theorem staysInFile_of_le (h : ent.size.toNat ≤ offset.toNat) : StaysInFile ent offset size := by
  have hdone : offset ≥ ent.size := BitVec.le_def.mpr h
  constructor
  · intro blockioGet minor fuel inode hdata lba hlba
    simp only [fs1ReadAsks, hdata, if_pos hdone] at hlba
    exact absurd hlba (by simp)
  · intro blockioGet minor fuel inode buffer m ret m' hdata hread
    rw [fs1Read, hdata, Option.bind_eq_bind, Option.bind_some, if_pos hdone, Option.some.injEq,
      Prod.mk.injEq] at hread
    obtain ⟨rfl, rfl⟩ := hread
    exact ⟨.inr (Nat.zero_le _), fun b _ => rfl⟩

/-- No block is asked for. -/
theorem staysInFile_of_endLba_lt (hlt : offset.toNat < ent.size.toNat)
    (h : fs1EndLba ent offset size < fs1StartLba ent offset) : StaysInFile ent offset size := by
  have hno : ¬ fs1StartLba ent offset ≤ fs1EndLba ent offset size := by
    rw [BitVec.lt_def] at h
    rw [BitVec.le_def]
    omega
  constructor
  · intro blockioGet minor fuel inode hdata lba hlba
    rw [fs1ReadAsks_eq hdata hlt] at hlba
    cases fuel with
    | zero => exact absurd hlba (by simp [fs1ReadLoopAsks])
    | succ fuel =>
      rw [fs1ReadLoopAsks, if_neg hno] at hlba
      exact absurd hlba (by simp)
  · intro blockioGet minor fuel inode buffer m ret m' hdata hread
    rw [fs1Read_eq hdata hlt] at hread
    cases fuel with
    | zero => exact absurd hread (by simp [fs1ReadLoop])
    | succ fuel =>
      rw [fs1ReadLoop, if_neg hno, Option.some.injEq, Prod.mk.injEq] at hread
      obtain ⟨rfl, rfl⟩ := hread
      exact ⟨.inr (Nat.zero_le _), fun b _ => rfl⟩

/-- The blocks that a read asks for, when no number of a block wraps. -/
theorem fs1ReadAsks_inside (hdata : inode.data = some ent) (hlt : offset.toNat < ent.size.toNat)
    (hpos : 1 ≤ size.toNat)
    (hlast : ent.lba.toNat + lastBlock ent.size.toNat offset.toNat size.toNat < 2 ^ 32 - 1)
    (hfile : lastBlock ent.size.toNat offset.toNat size.toNat < (ent.size.toNat + 4095) / 4096)
    (hfirst : offset.toNat / 4096 ≤ lastBlock ent.size.toNat offset.toNat size.toNat)
    {lba : BitVec 32} (hlba : lba ∈ fs1ReadAsks blockioGet minor fuel inode offset size) :
    ent.lba.toNat ≤ lba.toNat ∧
      lba.toNat < ent.lba.toNat + (ent.size.toNat + 4095) / 4096 := by
  have hend := fs1EndLba_toNat hlt hpos
  have hstart := fs1StartLba_toNat ent offset
  rw [fs1ReadAsks_eq hdata hlt] at hlba
  have hbetween := fs1ReadLoopAsks_le (by omega) _ _ _ hlba
  omega

/-- A read of one block copies no more than is left of the block. -/
theorem fs1ReadLoop_one {dev startLba lbaOffset z : BitVec 32} (hend : startLba.toNat < 2 ^ 32 - 1)
    (hoffset : lbaOffset.toNat < 4096)
    (h : fs1ReadLoop blockioGet dev startLba startLba lbaOffset z buffer fuel startLba 0 m
      = some (ret, m')) :
    (ret = -eio ∨ ret.toNat ≤ 4096 - lbaOffset.toNat) ∧
      ∀ b, b < buffer ∨ buffer + (4096 - lbaOffset.toNat) ≤ b → m' b = m b := by
  have hnext : ¬ startLba + 1 ≤ startLba := by
    have hone : (1 : BitVec 32).toNat = 1 := rfl
    rw [BitVec.le_def, BitVec.toNat_add_of_lt (by omega), hone]
    omega
  have hroom : (blockSize - lbaOffset).toNat = 4096 - lbaOffset.toNat :=
    BitVec.toNat_sub_of_le (BitVec.le_def.mpr (Nat.le_of_lt hoffset))
  cases fuel with
  | zero => exact absurd h (by simp [fs1ReadLoop])
  | succ fuel =>
    rw [fs1ReadLoop, if_pos (BitVec.le_refl _)] at h
    cases hget : blockioGet dev startLba with
    | none =>
      simp only [hget, ne_eq, not_true_eq_false, if_false, Option.some.injEq, Prod.mk.injEq] at h
      obtain ⟨rfl, rfl⟩ := h
      exact ⟨.inl rfl, fun b _ => rfl⟩
    | some page =>
      simp only [hget, if_true] at h
      have hcopy : (if blockSize - lbaOffset > z - 0 then z - 0 else blockSize - lbaOffset).toNat
          ≤ 4096 - lbaOffset.toNat := by
        by_cases hclip : blockSize - lbaOffset > z - 0
        · rw [if_pos hclip]
          rw [gt_iff_lt, BitVec.lt_def, hroom] at hclip
          omega
        · rw [if_neg hclip, hroom]
      generalize (if blockSize - lbaOffset > z - 0 then z - 0 else blockSize - lbaOffset) = toCopy
        at h hcopy
      have hzero : (0 : BitVec 32).toNat = 0 := rfl
      cases fuel with
      | zero => exact absurd h (by simp [fs1ReadLoop])
      | succ fuel =>
        rw [fs1ReadLoop, if_neg hnext, Option.some.injEq, Prod.mk.injEq] at h
        obtain ⟨rfl, rfl⟩ := h
        refine ⟨.inr ?_, fun b hb => ?_⟩
        · rw [show (0 : BitVec 32) + toCopy = toCopy from BitVec.zero_add toCopy]
          exact hcopy
        · exact if_neg (by omega)

/-- Nothing wraps: the read stays in the file. -/
theorem staysInFile_of_fits (hlt : offset.toNat < ent.size.toNat) (hpos : 1 ≤ size.toNat)
    (hlast : ent.lba.toNat + lastBlock ent.size.toNat offset.toNat size.toNat < 2 ^ 32 - 1)
    (hsum : offset.toNat + size.toNat < 2 ^ 32) : StaysInFile ent offset size := by
  obtain ⟨hfirst, hfile⟩ := lastBlock_of_lt hlt hpos hsum
  have hclipped := fs1ReadSize_toNat hlt hpos
  rw [if_pos hsum] at hclipped
  constructor
  · exact fun blockioGet minor fuel inode hdata lba hlba =>
      fs1ReadAsks_inside hdata hlt hpos hlast hfile hfirst hlba
  · intro blockioGet minor fuel inode buffer m ret m' hdata hread
    rw [fs1Read_eq hdata hlt] at hread
    have hcopies := fs1ReadLoop_copies _ _ _ _ _ _ (Nat.zero_le _) hread
    rw [hclipped] at hcopies
    exact hcopies

/-- The sum of offset and size wraps into the block where the read begins. -/
theorem staysInFile_of_wraps (hlt : offset.toNat < ent.size.toNat) (hpos : 1 ≤ size.toNat)
    (hlast : ent.lba.toNat + lastBlock ent.size.toNat offset.toNat size.toNat < 2 ^ 32 - 1)
    (hsum : 2 ^ 32 ≤ offset.toNat + size.toNat)
    (hone : lastBlock ent.size.toNat offset.toNat size.toNat = offset.toNat / 4096)
    (hfull : (offset.toNat / 4096 + 1) * 4096 ≤ ent.size.toNat) :
    StaysInFile ent offset size := by
  have hend := fs1EndLba_toNat hlt hpos
  have hstart := fs1StartLba_toNat ent offset
  have hsame : fs1EndLba ent offset size = fs1StartLba ent offset :=
    BitVec.eq_of_toNat_eq (by rw [hend, hstart, hone])
  have hmod : (offset % blockSize).toNat = offset.toNat % 4096 := BitVec.toNat_umod
  have hsize := ent.size.isLt
  have hbound : 4096 - (offset % blockSize).toNat ≤ readBound ent offset size := by
    rw [hmod, readBound]
    omega
  constructor
  · exact fun blockioGet minor fuel inode hdata lba hlba =>
      fs1ReadAsks_inside hdata hlt hpos hlast (by omega) (by omega) hlba
  · intro blockioGet minor fuel inode buffer m ret m' hdata hread
    rw [fs1Read_eq hdata hlt, hsame] at hread
    obtain ⟨hret, hframe⟩ := fs1ReadLoop_one (by omega) (by omega) hread
    exact ⟨hret.imp_right fun h => h.trans hbound, fun b hb => hframe b (by omega)⟩

end

/-! ## A read that leaves the file -/

/-- A device whose blocks are all ones. -/
def onesGet (_dev _lba : BitVec 32) : Option Block := some fun _ => 1

/-- The inode of an entry. -/
def inodeOf (ent : Fs1Inode) : VfsInode := ⟨0, 0, ent.size, sIfreg, 1, 0, some ent⟩

/-- The loop begins, so its first block is in the file, and its last one is not the last
number of all. -/
theorem StaysInFile.lastBlock_le (h : StaysInFile ent offset size)
    (hlt : offset.toNat < ent.size.toNat) (hpos : 1 ≤ size.toNat)
    (hbegin : ¬ fs1EndLba ent offset size < fs1StartLba ent offset) :
    offset.toNat / 4096 ≤ lastBlock ent.size.toNat offset.toNat size.toNat ∧
      ent.lba.toNat + lastBlock ent.size.toNat offset.toNat size.toNat < 2 ^ 32 - 1 := by
  have hend := fs1EndLba_toNat hlt hpos
  have hstart := fs1StartLba_toNat ent offset
  have hsize := ent.size.isLt
  have hlast := lastBlock_lt ent.size.toNat offset.toNat size.toNat hsize
  have hl := ent.lba.isLt
  have hle : fs1StartLba ent offset ≤ fs1EndLba ent offset size := by
    rw [BitVec.lt_def] at hbegin
    rw [BitVec.le_def]
    omega
  have hasked := h.asks onesGet (fun _ => 0)
  -- the first block
  have hfirst := hasked 1 (inodeOf ent) rfl (fs1StartLba ent offset) (by
    rw [fs1ReadAsks_eq rfl hlt, fs1ReadLoopAsks, if_pos hle]
    exact List.mem_cons_self)
  rw [BitVec.le_def] at hle
  have hno : fs1EndLba ent offset size ≠ BitVec.allOnes 32 := by
    intro hall
    -- block 0 comes after the last number
    have hzero := hasked (2 ^ 32 - (fs1StartLba ent offset).toNat + 1) (inodeOf ent) rfl 0 (by
      rw [fs1ReadAsks_eq rfl hlt, hall]
      have hmem := fs1ReadLoopAsks_all 0 (fun lba => (rfl : (onesGet 0 lba).isSome))
        (2 ^ 32 - (fs1StartLba ent offset).toNat) (fs1StartLba ent offset)
      have hsum : fs1StartLba ent offset
          + BitVec.ofNat 32 (2 ^ 32 - (fs1StartLba ent offset).toNat) = 0 := by
        have hs := (fs1StartLba ent offset).isLt
        have h0 : (0 : BitVec 32).toNat = 0 := rfl
        apply BitVec.eq_of_toNat_eq
        rw [BitVec.toNat_add, BitVec.toNat_ofNat, h0]
        omega
      rw [hsum] at hmem
      exact hmem)
    have hend' := congrArg BitVec.toNat hall
    rw [hend, BitVec.toNat_allOnes] at hend'
    have h0 : (0 : BitVec 32).toNat = 0 := rfl
    omega
  have hne : (fs1EndLba ent offset size).toNat ≠ 2 ^ 32 - 1 := by
    intro heq
    exact hno (BitVec.eq_of_toNat_eq (by rw [heq, BitVec.toNat_allOnes]))
  omega

/-- The bytes that a read takes from a device of ones. -/
theorem StaysInFile.copied_le (h : StaysInFile ent offset size)
    (hlt : offset.toNat < ent.size.toNat) (hpos : 1 ≤ size.toNat)
    (hfirst : offset.toNat / 4096 ≤ lastBlock ent.size.toNat offset.toNat size.toNat)
    (hlast : ent.lba.toNat + lastBlock ent.size.toNat offset.toNat size.toNat < 2 ^ 32 - 1) :
    min (fs1ReadSize ent offset size).toNat
      ((lastBlock ent.size.toNat offset.toNat size.toNat + 1) * 4096 - offset.toNat)
      ≤ readBound ent offset size := by
  have hend := fs1EndLba_toNat hlt hpos
  have hstart := fs1StartLba_toNat ent offset
  have hmod : (offset % blockSize).toNat = offset.toNat % 4096 := BitVec.toNat_umod
  have hones : ∀ lba, onesGet 0 lba = some fun _ => 1 := fun _ => rfl
  have hstop : (fs1EndLba ent offset size).toNat < 2 ^ 32 - 1 := by omega
  have hcut : (offset % blockSize).toNat < 4096 := by omega
  have hloop : ∃ ret : BitVec 32,
      fs1Read onesGet (fun _ => 0) (2 ^ 32 + 1) (inodeOf ent) 0 offset size (fun _ => 0)
        = some (ret, memcpy (fun _ => 0) 0 (fun _ => 1) ret.toNat) ∧
      ret.toNat = min (fs1ReadSize ent offset size).toNat
        (4096 * ((fs1EndLba ent offset size).toNat + 1 - (fs1StartLba ent offset).toNat)
          - (offset % blockSize).toNat) := by
    obtain ⟨ret, hrun, hret⟩ := fs1ReadLoop_ones (fun _ => 0) hones hstop hcut
      (2 ^ 32 + 1) (fs1StartLba ent offset) 0 (Nat.le_refl _) (by omega) (by omega)
      (fun _ => BitVec.le_def.mpr (by omega)) (Nat.zero_le (fs1ReadSize ent offset size).toNat)
    rw [show (0 : BitVec 32).toNat = 0 from rfl, memcpy_zero] at hrun
    rw [if_pos rfl, show (0 : BitVec 32).toNat = 0 from rfl, Nat.zero_add] at hret
    exact ⟨ret, (fs1Read_eq rfl hlt).trans hrun, hret⟩
  obtain ⟨ret, hrun, hret⟩ := hloop
  by_contra hover
  have hframe := (h.copies _ _ _ _ _ _ _ _ rfl hrun).2 (readBound ent offset size) (.inr (by omega))
  have hin : 0 ≤ readBound ent offset size ∧ readBound ent offset size < 0 + ret.toNat := by
    omega
  rw [memcpy, if_pos hin] at hframe
  exact absurd hframe (by decide)

/-- A read stays in the file exactly when its sums do not wrap, or wrap harmlessly. -/
theorem fs1Read_stays_iff (hpos : 1 ≤ size.toNat) : StaysInFile ent offset size ↔
    InBounds ent.lba.toNat ent.size.toNat offset.toNat size.toNat := by
  unfold InBounds
  by_cases hlt : offset.toNat < ent.size.toNat
  · have hend := fs1EndLba_toNat hlt hpos
    have hstart := fs1StartLba_toNat ent offset
    have hsize := ent.size.isLt
    have hz := size.isLt
    constructor
    · intro h
      by_cases hbegin : fs1EndLba ent offset size < fs1StartLba ent offset
      · rw [BitVec.lt_def, hend, hstart] at hbegin
        exact .inr (.inl hbegin)
      · obtain ⟨hfirst, hlast⟩ := h.lastBlock_le hlt hpos hbegin
        refine .inr (.inr ⟨hlast, ?_⟩)
        by_cases hsum : offset.toNat + size.toNat < 2 ^ 32
        · exact .inl hsum
        · -- nothing is clipped
          right
          have hcopied := h.copied_le hlt hpos hfirst hlast
          rw [fs1ReadSize_toNat hlt hpos, if_neg hsum, readBound] at hcopied
          rcases lastBlock_of_ge hlt hz hsize (by omega) with hle | ⟨hle, hall⟩
          · omega
          · rw [hle] at hcopied
            omega
    · rintro (hle | hwraps | ⟨hlast, hsum | ⟨hone, hfull⟩⟩)
      · exact staysInFile_of_le hle
      · exact staysInFile_of_endLba_lt hlt (by rw [BitVec.lt_def, hend, hstart]; exact hwraps)
      · exact staysInFile_of_fits hlt hpos hlast hsum
      · by_cases hsum : offset.toNat + size.toNat < 2 ^ 32
        · exact staysInFile_of_fits hlt hpos hlast hsum
        · exact staysInFile_of_wraps hlt hpos hlast (by omega) hone hfull
  · exact ⟨fun _ => .inl (by omega), fun _ => staysInFile_of_le (by omega)⟩

end

/-! ## A file of 100 bytes -/

/-- In block 1 of the disk. -/
def hundredBytes : Fs1Inode := ⟨Vector.replicate _ 0, 1, 100⟩

/-- Fifty bytes from offset 50, and so on to the end. -/
theorem fs1Read_stays_fifty : StaysInFile hundredBytes 50 60 :=
  (fs1Read_stays_iff (by decide)).mpr (by decide)

/-- From offset 50 with a size that wraps the sum to 4: 4046 bytes come back. -/
theorem fs1Read_leaves : ¬ ∀ (ent : Fs1Inode) (offset size : BitVec 32), 1 ≤ size.toNat →
    StaysInFile ent offset size := by
  intro hall
  have h := hall hundredBytes 50 (-46) (by decide)
  have hrun : (fs1Read onesGet (fun _ => 0) 2 (inodeOf hundredBytes) 0 50 (-46)
      fun _ => 0).map Prod.fst = some 4046 := by
    decide +kernel
  obtain ⟨⟨ret, m'⟩, hread, hret⟩ := Option.map_eq_some_iff.mp hrun
  obtain ⟨hcopied, -⟩ := h.copies _ _ _ _ _ _ _ _ rfl hread
  obtain rfl : ret = 4046 := hret
  exact absurd hcopied (by decide)

end Ko6.Fs
