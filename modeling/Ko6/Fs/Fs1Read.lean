import Ko6.Fs.Fs1

set_option autoImplicit false

/-!
# Fs: sequential reads of a file on fs1

`fs1_read` clips a request at the end of the file and copies it block by block;
`vfs_read` moves the offset of the file.  `readRun_reads` says what any sequence of
reads on a freshly opened file returns.  The offset plus a size may pass `2 ^ 31`,
but for a file below that bound not `2 ^ 32`.
-/

namespace Ko6.Fs

open Ko6.Lib Ko6.Common

/-! ## Model -/

/-- `EINVAL`, `EIO`. -/
def einval : BitVec 32 := 7
def eio : BitVec 32 := 23

/-- `memcpy` between areas that do not overlap: the bytes `src 0`, ... go to `dest`. -/
def memcpy (m : Mem) (dest : Nat) (src : Nat → BitVec 8) (n : Nat) : Mem := fun b =>
  if dest ≤ b ∧ b < dest + n then src (b - dest) else m b

/-- A block of a device. -/
abbrev Block : Type := Nat → BitVec 8

section
variable (blockioGet : BitVec 32 → BitVec 32 → Option Block) (minor : SbPtr → BitVec 32)

/-- The loop of `fs1_read` on `lba` and `copied`; `none` when `fuel` runs out. -/
def fs1ReadLoop (dev startLba endLba lbaOffset size : BitVec 32) (buffer : Nat) :
    Nat → BitVec 32 → BitVec 32 → Mem → Option (BitVec 32 × Mem)
  | 0, _, _, _ => none
  | fuel + 1, lba, copied, m =>
    if lba ≤ endLba then
      match blockioGet dev lba with
      | none => some (if copied ≠ 0 then copied else -eio, m)
      | some page =>
        let pageOffset := if lba = startLba then lbaOffset else 0
        let toCopy := blockSize - pageOffset
        let toCopy := if toCopy > size - copied then size - copied else toCopy
        let m := memcpy m (buffer + copied.toNat) (fun i => page (pageOffset.toNat + i)) toCopy.toNat
        fs1ReadLoop dev startLba endLba lbaOffset size buffer fuel (lba + 1) (copied + toCopy) m
    else some (copied, m)

/-- `fs1_read`: the number of bytes or an error, and the memory.  The root has no
entry to read. -/
def fs1Read (fuel : Nat) (inode : VfsInode) (buffer : Nat) (offset size : BitVec 32) (m : Mem) :
    Option (BitVec 32 × Mem) := do
  let ent ← inode.data
  if offset ≥ ent.size then some (0, m)
  else
    let size := if offset + size > ent.size then ent.size - offset else size
    let startLba := ent.lba + offset / blockSize
    let endLba := ent.lba + (offset + size - 1) / blockSize
    let lbaOffset := offset % blockSize
    fs1ReadLoop blockioGet (minor inode.sb) startLba endLba lbaOffset size buffer fuel startLba 0 m

end

/-- The `read` operation of a file system. -/
abbrev ReadOp : Type :=
  VfsInode → Nat → BitVec 32 → BitVec 32 → Mem → Option (BitVec 32 × Mem)

/-- `vfs_read`, with the `read` operations of the superblocks. -/
def vfsRead (readOp : SbPtr → Option ReadOp) (inodes : List VfsInode) (file : VfsFile)
    (buffer : Nat) (size : BitVec 32) (m : Mem) : Option (BitVec 32 × VfsFile × Mem) :=
  if buffer = 0 ∨ size = 0 then some (-einval, file, m)
  else
    match inodes[file.inode]? with
    | none => some (-einval, file, m)
    | some inode =>
      match readOp inode.sb with
      | none => some (-einval, file, m)
      | some read => do
        let (ret, m) ← read inode buffer file.offset size m
        if ret.toInt < 0 then some (ret, file, m)
        else some (ret, { file with offset := file.offset + ret }, m)

/-! ## The file -/

/-- The bytes of a file in the image of the device. -/
def fileBytes (image : Nat → BitVec 8) (ent : Fs1Inode) : List (BitVec 8) :=
  (List.range ent.size.toNat).map fun k => image (ent.lba.toNat * blockSize.toNat + k)

/-- The `n` bytes of the buffer. -/
def bufferBytes (m : Mem) (buffer n : Nat) : List (BitVec 8) :=
  (List.range n).map fun i => m (buffer + i)

/-- A file below `2 ^ 31` bytes that lies on its device, whose blocks `blockio_get`
returns. -/
structure FileOn (blockioGet : BitVec 32 → BitVec 32 → Option Block) (dev : BitVec 32)
    (blocks : BitVec 32) (image : Nat → BitVec 8) (ent : Fs1Inode) : Prop where
  size_lt : ent.size.toNat < 2 ^ 31
  inside : ent.lba.toNat * blockSize.toNat + ent.size.toNat ≤ blocks.toNat * blockSize.toNat
  read : ∀ lba, lba < blocks →
    blockioGet dev lba = some fun i => image (lba.toNat * blockSize.toNat + i)

/-- The inode `i` of such a file, on an fs1 volume.  A file below `2 ^ 31` bytes has at
most `2 ^ 19` blocks, which bounds the turns of the loop. -/
structure IsFile (readOp : SbPtr → Option ReadOp) (inodes : List VfsInode) (inode : InodePtr)
    (i : VfsInode) (blockioGet : BitVec 32 → BitVec 32 → Option Block)
    (minor : SbPtr → BitVec 32) (fuel : Nat) (blocks : BitVec 32) (image : Nat → BitVec 8)
    (ent : Fs1Inode) : Prop where
  inMemory : inodes[inode]? = some i
  data : i.data = some ent
  op : readOp i.sb = some (fs1Read blockioGet minor fuel)
  enough : 2 ^ 19 < fuel
  onDevice : FileOn blockioGet (minor i.sb) blocks image ent

/-- Reads of a freshly opened file, one after the other: the file and all the bytes
they have put in their buffers.  The memory may change in between. -/
inductive ReadRun (readOp : SbPtr → Option ReadOp) (inodes : List VfsInode) (inode : InodePtr) :
    VfsFile → List (BitVec 8) → Prop where
  | opened : ReadRun readOp inodes inode ⟨inode, 0⟩ []
  | read {file file' : VfsFile} {got : List (BitVec 8)} {buffer : Nat} {size ret : BitVec 32}
      {m m' : Mem} : ReadRun readOp inodes inode file got →
      buffer ≠ 0 → 1 ≤ size.toNat → size.toNat < 2 ^ 31 →
      vfsRead readOp inodes file buffer size m = some (ret, file', m') →
      ReadRun readOp inodes inode file' (got ++ bufferBytes m' buffer ret.toNat)

section
variable {blockioGet : BitVec 32 → BitVec 32 → Option Block} {minor : SbPtr → BitVec 32}
  {dev blocks : BitVec 32} {image : Nat → BitVec 8} {ent : Fs1Inode} {m : Mem} {buffer : Nat}

/-! ## One read -/

/-- Copies of adjacent pieces are one copy. -/
theorem memcpy_memcpy (m : Mem) {dest c n : Nat} (src piece : Nat → BitVec 8)
    (h : ∀ i, i < n → piece i = src (c + i)) :
    memcpy (memcpy m dest src c) (dest + c) piece n = memcpy m dest src (c + n) := by
  funext b
  unfold memcpy
  by_cases hnew : dest + c ≤ b ∧ b < dest + c + n
  · have hall : dest ≤ b ∧ b < dest + (c + n) := by omega
    rw [if_pos hnew, if_pos hall, h _ (by omega), show c + (b - (dest + c)) = b - dest by omega]
  · rw [if_neg hnew]
    by_cases hold : dest ≤ b ∧ b < dest + c
    · have hall : dest ≤ b ∧ b < dest + (c + n) := by omega
      rw [if_pos hold, if_pos hall]
    · have hall : ¬ (dest ≤ b ∧ b < dest + (c + n)) := by omega
      rw [if_neg hold, if_neg hall]

/-- What has been copied before block `blk`, of `z` bytes from offset `o` on. -/
def copiedBefore (o z blk : Nat) : Nat :=
  if blk = o / blockSize.toNat then 0 else min z (blk * blockSize.toNat - o)

/-- A block of the file. -/
theorem FileOn.block (h : FileOn blockioGet dev blocks image ent) {lba : BitVec 32} {blk : Nat}
    (hlba : lba.toNat = ent.lba.toNat + blk) (hblk : blk * blockSize.toNat < ent.size.toNat) :
    blockioGet dev lba
      = some fun i => image ((ent.lba.toNat + blk) * blockSize.toNat + i) := by
  have hin := h.inside
  have hsize : blockSize.toNat = 4096 := rfl
  rw [hsize] at hin hblk
  have hlt : lba < blocks := by
    rw [BitVec.lt_def]
    omega
  rw [h.read lba hlt, hlba]

/-- Where a block is cut: the first one behind `lbaOffset`. -/
theorem pageOffset_spec {lba startLba lbaOffset : BitVec 32} {o z blk : Nat}
    (hlba : lba.toNat = ent.lba.toNat + blk)
    (hstart : startLba.toNat = ent.lba.toNat + o / blockSize.toNat)
    (hoffset : lbaOffset.toNat = o % blockSize.toNat) (hlo : o / blockSize.toNat ≤ blk)
    (hmore : blk * blockSize.toNat < o + z) :
    ∃ pageOffset : BitVec 32, (if lba = startLba then lbaOffset else 0) = pageOffset ∧
      pageOffset.toNat < blockSize.toNat ∧
      o + copiedBefore o z blk = blk * blockSize.toNat + pageOffset.toNat ∧
      copiedBefore o z blk ≤ z := by
  have hsize : blockSize.toNat = 4096 := rfl
  unfold copiedBefore
  rw [hsize] at hstart hoffset hlo hmore ⊢
  by_cases hfirst : blk = o / 4096
  · have heq : lba = startLba := BitVec.eq_of_toNat_eq (by omega)
    rw [if_pos heq, if_pos hfirst]
    exact ⟨lbaOffset, rfl, by omega, by omega, by omega⟩
  · have hne : lba ≠ startLba := by
      rintro rfl
      omega
    rw [if_neg hne, if_neg hfirst]
    have hzero : (0 : BitVec 32).toNat = 0 := rfl
    exact ⟨0, rfl, by omega, by omega, by omega⟩

/-- How much of a block is copied. -/
theorem toCopy_spec {pageOffset size copied : BitVec 32} (hpage : pageOffset.toNat < blockSize.toNat)
    (hle : copied.toNat ≤ size.toNat) :
    ∃ toCopy : BitVec 32,
      (if blockSize - pageOffset > size - copied then size - copied else blockSize - pageOffset)
        = toCopy ∧
      toCopy.toNat = min (blockSize.toNat - pageOffset.toNat) (size.toNat - copied.toNat) := by
  have hroom : (blockSize - pageOffset).toNat = blockSize.toNat - pageOffset.toNat :=
    BitVec.toNat_sub_of_le (Nat.le_of_lt hpage)
  have hleft : (size - copied).toNat = size.toNat - copied.toNat := BitVec.toNat_sub_of_le hle
  by_cases hclip : blockSize - pageOffset > size - copied
  · rw [if_pos hclip]
    rw [gt_iff_lt, BitVec.lt_def, hroom, hleft] at hclip
    exact ⟨_, rfl, by omega⟩
  · rw [if_neg hclip]
    rw [gt_iff_lt, BitVec.lt_def, hroom, hleft] at hclip
    exact ⟨_, rfl, by omega⟩

/-- The loop, at block `blk` of the file. -/
theorem fs1ReadLoop_spec (m : Mem) (buffer : Nat) (h : FileOn blockioGet dev blocks image ent)
    {startLba endLba lbaOffset size : BitVec 32} {o : Nat} (hz : 1 ≤ size.toNat)
    (hfits : o + size.toNat ≤ ent.size.toNat)
    (hstart : startLba.toNat = ent.lba.toNat + o / blockSize.toNat)
    (hend : endLba.toNat = ent.lba.toNat + (o + size.toNat - 1) / blockSize.toNat)
    (hoffset : lbaOffset.toNat = o % blockSize.toNat) :
    ∀ (fuel blk : Nat) (lba copied : BitVec 32), o / blockSize.toNat ≤ blk →
      blk ≤ (o + size.toNat - 1) / blockSize.toNat + 1 →
      (o + size.toNat - 1) / blockSize.toNat + 2 ≤ blk + fuel →
      lba.toNat = ent.lba.toNat + blk → copied.toNat = copiedBefore o size.toNat blk →
      fs1ReadLoop blockioGet dev startLba endLba lbaOffset size buffer fuel lba copied
        (memcpy m buffer (fun i => image (ent.lba.toNat * blockSize.toNat + o + i)) copied.toNat)
      = some (size, memcpy m buffer
          (fun i => image (ent.lba.toNat * blockSize.toNat + o + i)) size.toNat) := by
  have hsize : blockSize.toNat = 4096 := rfl
  have hblocks := blocks.isLt
  have hin := h.inside
  rw [hsize] at hin
  intro fuel
  induction fuel with
  | zero =>
    intro blk lba copied hlo hhi hfuel
    omega
  | succ fuel ih =>
    intro blk lba copied hlo hhi hfuel hlba hcopied
    rw [fs1ReadLoop]
    by_cases hmore : lba ≤ endLba
    · have hblk : blk * 4096 < o + size.toNat := by
        rw [BitVec.le_def, hend, hsize] at hmore
        omega
      obtain ⟨pageOffset, hpage, hplt, hcut, hle⟩ := pageOffset_spec hlba hstart hoffset hlo hblk
      rw [← hcopied] at hcut hle
      obtain ⟨toCopy, hcopy, hcopyNat⟩ := toCopy_spec hplt hle
      rw [if_pos hmore, h.block hlba (by rw [hsize]; omega)]
      simp only [hpage, hcopy]
      have hpiece : ∀ i, i < toCopy.toNat →
          image ((ent.lba.toNat + blk) * blockSize.toNat + (pageOffset.toNat + i))
            = image (ent.lba.toNat * blockSize.toNat + o + (copied.toNat + i)) := by
        intro i _
        rw [hsize] at hcut ⊢
        exact congrArg image (by omega)
      rw [memcpy_memcpy m _ _ hpiece]
      rw [hsize] at hcut hcopyNat hplt
      have hsum : (copied + toCopy).toNat = copied.toNat + toCopy.toNat :=
        BitVec.toNat_add_of_lt (by omega)
      rw [← hsum]
      refine ih (blk + 1) (lba + 1) (copied + toCopy) (by omega) ?_ (by omega) ?_ ?_
      · rw [BitVec.le_def, hend, hsize] at hmore
        rw [hsize]
        omega
      · have hone : (1 : BitVec 32).toNat = 1 := rfl
        rw [BitVec.toNat_add_of_lt (by omega), hone]
        omega
      · rw [hsum, copiedBefore, hsize]
        rw [hsize] at hlo
        rw [if_neg (by omega)]
        omega
    · -- all blocks are done
      have hdone : copied = size := by
        rw [BitVec.le_def, hend, hsize] at hmore
        rw [hsize] at hhi
        apply BitVec.eq_of_toNat_eq
        rw [hcopied, copiedBefore, hsize]
        split <;> omega
      rw [if_neg hmore, hdone]

theorem memcpy_zero (m : Mem) (dest : Nat) (src : Nat → BitVec 8) : memcpy m dest src 0 = m := by
  funext b
  exact if_neg (by omega)

/-- `fs1_read` copies what is left, up to the size asked for. -/
theorem fs1Read_spec (m : Mem) (buffer : Nat) {inode : VfsInode} {fuel : Nat}
    {offset size : BitVec 32} (h : FileOn blockioGet (minor inode.sb) blocks image ent) (hdata : inode.data = some ent)
    (hfuel : 2 ^ 19 < fuel) (hoffset : offset.toNat ≤ ent.size.toNat) (hpos : 1 ≤ size.toNat)
    (hlt : size.toNat < 2 ^ 31) :
    ∃ ret, fs1Read blockioGet minor fuel inode buffer offset size m
        = some (ret, memcpy m buffer
            (fun i => image (ent.lba.toNat * blockSize.toNat + offset.toNat + i)) ret.toNat) ∧
      ret.toNat = min size.toNat (ent.size.toNat - offset.toNat) := by
  have hsize : blockSize.toNat = 4096 := rfl
  have hslt := h.size_lt
  have hin := h.inside
  have hblocks := blocks.isLt
  rw [fs1Read, hdata, Option.bind_eq_bind, Option.bind_some]
  by_cases hdone : offset ≥ ent.size
  · have hzero : (0 : BitVec 32).toNat = 0 := rfl
    rw [ge_iff_le, BitVec.le_def] at hdone
    rw [if_pos (BitVec.le_def.mpr hdone)]
    exact ⟨0, by rw [hzero, memcpy_zero], by omega⟩
  · rw [if_neg hdone]
    rw [ge_iff_le, BitVec.le_def] at hdone
    -- the request is clipped to `ret` bytes
    obtain ⟨ret, hret, hretNat⟩ : ∃ ret : BitVec 32,
        (if offset + size > ent.size then ent.size - offset else size) = ret ∧
        ret.toNat = min size.toNat (ent.size.toNat - offset.toNat) := by
      have hsum : (offset + size).toNat = offset.toNat + size.toNat :=
        BitVec.toNat_add_of_lt (by omega)
      have hleft : (ent.size - offset).toNat = ent.size.toNat - offset.toNat :=
        BitVec.toNat_sub_of_le hoffset
      by_cases hclip : offset + size > ent.size
      · rw [if_pos hclip]
        rw [gt_iff_lt, BitVec.lt_def, hsum] at hclip
        exact ⟨_, rfl, by omega⟩
      · rw [if_neg hclip]
        rw [gt_iff_lt, BitVec.lt_def, hsum] at hclip
        exact ⟨_, rfl, by omega⟩
    simp only [hret]
    rw [hsize] at hin
    have hlast : (offset + ret - 1).toNat = offset.toNat + ret.toNat - 1 := by
      have hone : (1 : BitVec 32).toNat = 1 := rfl
      have hsum : (offset + ret).toNat = offset.toNat + ret.toNat :=
        BitVec.toNat_add_of_lt (by omega)
      rw [BitVec.toNat_sub_of_le (by rw [BitVec.le_def, hsum, hone]; omega), hsum, hone]
    have hstart : (ent.lba + offset / blockSize).toNat
        = ent.lba.toNat + offset.toNat / blockSize.toNat := by
      rw [BitVec.toNat_add_of_lt, BitVec.toNat_udiv]
      rw [BitVec.toNat_udiv, hsize]
      omega
    have hend : (ent.lba + (offset + ret - 1) / blockSize).toNat
        = ent.lba.toNat + (offset.toNat + ret.toNat - 1) / blockSize.toNat := by
      rw [BitVec.toNat_add_of_lt, BitVec.toNat_udiv, hlast]
      rw [BitVec.toNat_udiv, hlast, hsize]
      omega
    have hfirst : (0 : BitVec 32).toNat
        = copiedBefore offset.toNat ret.toNat (offset.toNat / blockSize.toNat) := by
      rw [copiedBefore, if_pos rfl]
      rfl
    have hloop := fs1ReadLoop_spec m buffer h (by omega) (by omega) hstart hend BitVec.toNat_umod fuel _
      (ent.lba + offset / blockSize) 0 (Nat.le_refl _) (by rw [hsize]; omega)
      (by rw [hsize]; omega) hstart hfirst
    rw [show (0 : BitVec 32).toNat = 0 from rfl, memcpy_zero] at hloop
    exact ⟨ret, hloop, hretNat⟩

/-! ## A run of reads -/

theorem bufferBytes_memcpy (m : Mem) (buffer n : Nat) (src : Nat → BitVec 8) :
    bufferBytes (memcpy m buffer src n) buffer n = (List.range n).map src := by
  refine List.map_congr_left fun i hi => ?_
  have hlt := List.mem_range.mp hi
  have hin : buffer ≤ buffer + i ∧ buffer + i < buffer + n := by omega
  rw [memcpy, if_pos hin, Nat.add_sub_cancel_left]

/-- The next piece of the file. -/
theorem fileBytes_take (image : Nat → BitVec 8) (ent : Fs1Inode) {o n : Nat}
    (h : o + n ≤ ent.size.toNat) :
    (fileBytes image ent).take o
        ++ (List.range n).map (fun i => image (ent.lba.toNat * blockSize.toNat + o + i))
      = (fileBytes image ent).take (o + n) := by
  unfold fileBytes
  rw [← List.map_take, ← List.map_take, List.take_range, List.take_range,
    Nat.min_eq_left (by omega), Nat.min_eq_left h, List.range_add, List.map_append, List.map_map]
  refine congrArg₂ (· ++ ·) rfl (List.map_congr_left fun i _ => ?_)
  rw [Function.comp_apply, Nat.add_assoc]

variable {readOp : SbPtr → Option ReadOp} {inodes : List VfsInode} {inode : InodePtr}
  {i : VfsInode} {fuel : Nat} {file : VfsFile} {got : List (BitVec 8)}

/-- `vfs_read` of what is left, up to the size asked for. -/
theorem IsFile.vfsRead (h : IsFile readOp inodes inode i blockioGet minor fuel blocks image ent)
    (hinode : file.inode = inode) (hoffset : file.offset.toNat ≤ ent.size.toNat)
    (hbuffer : buffer ≠ 0) {size : BitVec 32} (hpos : 1 ≤ size.toNat) (hlt : size.toNat < 2 ^ 31) :
    ∃ ret, Fs.vfsRead readOp inodes file buffer size m
        = some (ret, { file with offset := file.offset + ret },
            memcpy m buffer
              (fun i => image (ent.lba.toNat * blockSize.toNat + file.offset.toNat + i)) ret.toNat) ∧
      ret.toNat = min size.toNat (ent.size.toNat - file.offset.toNat) ∧
      ret.toInt = ret.toNat := by
  obtain ⟨ret, hread, hret⟩ :=
    fs1Read_spec m buffer h.onDevice h.data h.enough hoffset hpos hlt
  have hsize0 : size ≠ 0 := by
    rintro rfl
    exact absurd hpos (by decide)
  have hslt := h.onDevice.size_lt
  have hint : ret.toInt = ret.toNat := BitVec.toInt_eq_toNat_of_lt (by omega)
  refine ⟨ret, ?_, hret, hint⟩
  unfold Fs.vfsRead
  rw [if_neg (not_or.mpr ⟨hbuffer, hsize0⟩), hinode, h.inMemory]
  simp only [h.op, hread, Option.bind_eq_bind, Option.bind_some]
  rw [if_neg (by omega)]

/-- The bytes read so far are the ones before the offset. -/
theorem ReadRun.inv (hfile : IsFile readOp inodes inode i blockioGet minor fuel blocks image ent)
    (h : ReadRun readOp inodes inode file got) :
    file.inode = inode ∧ file.offset.toNat ≤ ent.size.toNat ∧
      got = (fileBytes image ent).take file.offset.toNat := by
  induction h with
  | opened => exact ⟨rfl, Nat.zero_le _, rfl⟩
  | @read file file' got buffer size ret m m' _ hbuffer hpos hlt hread ih =>
    obtain ⟨hinode, hoffset, hgot⟩ := ih
    obtain ⟨ret', heq, hret, -⟩ := hfile.vfsRead (m := m) hinode hoffset hbuffer hpos hlt
    rw [hread, Option.some.injEq, Prod.mk.injEq, Prod.mk.injEq] at heq
    obtain ⟨rfl, rfl, rfl⟩ := heq
    have hslt := hfile.onDevice.size_lt
    have hsum : (file.offset + ret).toNat = file.offset.toNat + ret.toNat :=
      BitVec.toNat_add_of_lt (by omega)
    refine ⟨hinode, ?_, ?_⟩
    · simp only [hsum]
      omega
    · simp only [hsum]
      rw [bufferBytes_memcpy, hgot, fileBytes_take image ent (by omega)]

/-- Any reads of a freshly opened file: each returns the bytes that are left, up to
its size, puts them in its buffer and nothing else in memory; together they are a
prefix of the file; and 0 comes exactly at its end. -/
theorem readRun_reads (hfile : IsFile readOp inodes inode i blockioGet minor fuel blocks image ent)
    (h : ReadRun readOp inodes inode file got) (hbuffer : buffer ≠ 0) {size : BitVec 32}
    (hpos : 1 ≤ size.toNat) (hlt : size.toNat < 2 ^ 31) (m : Mem) :
    got <+: fileBytes image ent ∧
    ∃ ret file' m', vfsRead readOp inodes file buffer size m = some (ret, file', m') ∧
      ret.toInt = (min size.toNat (ent.size.toNat - got.length) : Nat) ∧
      (∀ b, b < buffer ∨ buffer + ret.toNat ≤ b → m' b = m b) ∧
      got ++ bufferBytes m' buffer ret.toNat <+: fileBytes image ent ∧
      (ret.toInt = 0 ↔ got = fileBytes image ent) := by
  obtain ⟨hinode, hoffset, hgot⟩ := h.inv hfile
  obtain ⟨ret, hread, hret, hint⟩ := hfile.vfsRead (m := m) hinode hoffset hbuffer hpos hlt
  have hlen : (fileBytes image ent).length = ent.size.toNat := by
    rw [fileBytes, List.length_map, List.length_range]
  have hgotLen : got.length = file.offset.toNat := by
    rw [hgot, List.length_take, hlen]
    omega
  refine ⟨hgot ▸ List.take_prefix _ _, ret, _, _, hread, ?_, fun b hb => ?_, ?_, ?_⟩
  · rw [hint, hret, hgotLen]
  · exact if_neg (by omega)
  · rw [bufferBytes_memcpy, hgot, fileBytes_take image ent (by omega)]
    exact List.take_prefix _ _
  · rw [hint]
    constructor
    · intro hzero
      rw [hgot]
      exact List.take_of_length_le (by omega)
    · intro hall
      rw [hall, hlen] at hgotLen
      omega

end

/-! ## The file `f` -/

/-- A device of ten blocks. -/
def tenBlocks (_dev lba : BitVec 32) : Option Block :=
  if lba < 10 then some fun i => BitVec.ofNat 8 (lba.toNat * blockSize.toNat + i) else none

/-- fs1 on it. -/
def fReadOp (_sb : SbPtr) : Option ReadOp := some (fs1Read tenBlocks (fun _ => 0) (2 ^ 19 + 1))

/-- The inode of `f` after one `vfs_open`. -/
def fInode : VfsInode := ⟨0, 1, 5000, sIfreg, 3, 0, some fEntry⟩

/-- The first 100 bytes. -/
theorem readRun_reads_hundred : ∃ ret file' m',
    vfsRead fReadOp [fInode] ⟨0, 0⟩ 4096 100 (fun _ => 0) = some (ret, file', m') ∧
      ret.toInt = 100 := by
  have hfile : IsFile fReadOp [fInode] 0 fInode tenBlocks (fun _ => 0) (2 ^ 19 + 1) 10
      (BitVec.ofNat 8) fEntry :=
    { inMemory := rfl
      data := rfl
      op := rfl
      enough := by omega
      onDevice := ⟨by decide +kernel, by decide +kernel, fun lba hlt => if_pos hlt⟩ }
  have hbuffer : (4096 : Nat) ≠ 0 := by omega
  have hpos : 1 ≤ (100 : BitVec 32).toNat := by decide
  have hlt : (100 : BitVec 32).toNat < 2 ^ 31 := by decide
  obtain ⟨-, ret, file', m', hread, hret, -⟩ :=
    readRun_reads hfile .opened hbuffer hpos hlt (fun _ => 0)
  refine ⟨ret, file', m', hread, hret.trans ?_⟩
  decide +kernel

end Ko6.Fs
