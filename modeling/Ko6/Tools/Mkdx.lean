import Ko6.Fs.Fs1

set_option autoImplicit false

/-!
# Tools: the disk images of mkdx

`mkdx` writes its files one behind the other, behind a block for the directory, and
enters each with the block that it would have if every file began with a block.
`fs1_lookup` finds the entries; `mkdx_agrees_iff` says for which files the blocks of
the entries hold the files.
-/

namespace Ko6.Tools

open Ko6.Lib Ko6.Common Ko6.Fs

/-! ## Model -/

/-- `PAGE_SIZE`. -/
def pageSize : Nat := 4096

/-- A file that is open for writing. -/
structure OutFile where
  bytes : List (BitVec 8)
  offset : Nat

namespace OutFile

/-- The bytes before the offset; a gap reads as zeros once something is written behind it. -/
def before (f : OutFile) : List (BitVec 8) :=
  f.bytes.take f.offset ++ List.replicate (f.offset - f.bytes.length) 0

/-- `lseek` with `SEEK_SET`. -/
def lseek (f : OutFile) (offset : Nat) : OutFile := { f with offset := offset }

/-- `write` of a whole buffer that is not empty. -/
def write (f : OutFile) (buf : List (BitVec 8)) : OutFile where
  bytes := f.before ++ buf ++ f.bytes.drop (f.offset + buf.length)
  offset := f.offset + buf.length

end OutFile

/-- An argument of `mkdx` and the file it names. -/
structure InFile where
  pathname : CStr
  data : List (BitVec 8)

/-- `Dir`, `Nb_file`, `current_lba` and the file behind `Disk_fd`. -/
structure Mkdx where
  dir : Vector Fs1Inode fs1MaxFiles
  nbFile : Nat
  currentLba : Nat
  disk : OutFile

/-- The search for the last `/`, from the end of the pathname. -/
def nameLoop (pathname : CStr) : Nat → Nat
  | 0 => 0
  | name + 1 => if pathname.byte (name + 1) ≠ slash then nameLoop pathname name else name + 1

/-- `name` in `copy_file_to_disk`. -/
def fileName (pathname : CStr) : List (BitVec 8) :=
  let name := nameLoop pathname (strlen pathname)
  let name := if pathname.byte name = slash then name + 1 else name
  pathname.chars.drop name

/-- The entry of a file; `strncpy` fills the name with zeros. -/
def dirEntry (f : InFile) (lba : Nat) : Fs1Inode where
  name := Vector.ofFn fun i => if i.val < 23 then (fileName f.pathname).getD i.val 0 else 0
  lba := BitVec.ofNat 32 lba
  size := BitVec.ofNat 32 f.data.length

/-- The copy loop of `copy_file_to_disk`; each turn reads something, so that the length
of the rest bounds the turns.  A block number that does not fit an `int` is a fault. -/
def copyLoop : Nat → List (BitVec 8) → Nat → OutFile → Option (Nat × OutFile)
  | 0, _, lba, disk => some (lba, disk)
  | fuel + 1, data, lba, disk =>
    let buffer := data.take pageSize
    if buffer = [] then some (lba, disk)
    else
      let lba := lba + (buffer.length + pageSize - 1) / pageSize
      if lba < 2 ^ 31 then copyLoop fuel (data.drop pageSize) lba (disk.write buffer) else none

/-- `copy_file_to_disk`. -/
def copyFileToDisk (f : InFile) (fileIndex : Nat) (s : Mkdx) : Option Mkdx :=
  (copyLoop f.data.length f.data s.currentLba s.disk).map fun (lba, disk) =>
    { s with
      dir := s.dir.setIfInBounds fileIndex (dirEntry f s.currentLba)
      currentLba := lba
      disk := disk }

/-- The loop of `main`. -/
def mkdxLoop : List InFile → Mkdx → Option Mkdx
  | [], s => some s
  | f :: files, s =>
    if s.nbFile < fs1MaxFiles then
      (copyFileToDisk f s.nbFile s).bind fun s => mkdxLoop files { s with nbFile := s.nbFile + 1 }
    else some s

/-- A byte of an `entry_t`. -/
def entryByte (e : Fs1Inode) (j : Nat) : BitVec 8 :=
  if j < 24 then e.nameByte j
  else if j < 28 then e.lba.extractLsb' (8 * (j - 24)) 8
  else e.size.extractLsb' (8 * (j - 28)) 8

/-- An entry that is not used. -/
def noEntry : Fs1Inode := ⟨Vector.replicate fs1NameLen 0, 0, 0⟩

/-- The bytes of `Dir`. -/
def dirBytes (dir : Vector Fs1Inode fs1MaxFiles) : List (BitVec 8) :=
  (List.range (32 * fs1MaxFiles)).map fun p => entryByte (dir.toList.getD (p / 32) noEntry) (p % 32)

/-- `main` of mkdx: the image.  Without a file there is only the usage message. -/
def mkdx (files : List InFile) : Option (List (BitVec 8)) :=
  if files = [] then none
  else
    let disk := OutFile.lseek ⟨[], 0⟩ pageSize
    (mkdxLoop files ⟨Vector.replicate fs1MaxFiles noEntry, 1, 1, disk⟩).map fun s =>
      ((s.disk.lseek 0).write (dirBytes s.dir)).bytes

/-- The entry `i` in the first block of a device, as `fs1_mount` takes it. -/
def fs1Entry (image : List (BitVec 8)) (i : Nat) : Fs1Inode where
  name := Vector.ofFn fun j => image.getD (32 * i + j.val) 0
  lba := Mem.readWord (fun p => image.getD p 0) (32 * i + 24)
  size := Mem.readWord (fun p => image.getD p 0) (32 * i + 28)

/-- The entries of the volume. -/
def fs1Entries (image : List (BitVec 8)) : Vector Fs1Inode fs1MaxFiles :=
  Vector.ofFn fun i => fs1Entry image i.val

/-! ## The contract -/

/-- The base name of a pathname: what stands behind its last `/`. -/
def baseName (pathname : CStr) : List (BitVec 8) :=
  (pathname.chars.reverse.takeWhile (· ≠ slash)).reverse

/-- The blocks of `n` bytes. -/
def blocksOf (n : Nat) : Nat := (n + 4095) / 4096

/-- A block of the file `f` whose entry is `e`. -/
def InBlocks (e : Fs1Inode) (f : InFile) (b : Nat) : Prop :=
  e.lba.toNat ≤ b ∧ b < e.lba.toNat + blocksOf f.data.length

/-- `fs1_lookup` of the name makes an inode for the entry `ino`. -/
def Finds (image : List (BitVec 8)) (name : List (BitVec 8)) (ino : Nat) : Prop :=
  ∀ (room : Nat → Bool) (vols : SbPtr → Fs1Volume) (sb : SbPtr) (dir : Option InodePtr) (st : Vfs),
    (vols sb).entries = fs1Entries image → room st.kmallocs = true →
      ∃ inode st' i, fs1Lookup room vols sb dir name st = (some inode, st') ∧
        st'.inodes[inode]? = some i ∧ i.ino = ino ∧ i.data = some (fs1Entry image ino)

/-- The image holds the files, each in the blocks of its entry. -/
structure Agrees (files : List InFile) (image : List (BitVec 8)) : Prop where
  found : ∀ k f, files[k]? = some f → Finds image (baseName f.pathname) (k + 1)
  size : ∀ k f, files[k]? = some f →
    (fs1Entry image (k + 1)).size = BitVec.ofNat 32 f.data.length
  content : ∀ k f, files[k]? = some f → ∀ o, o < f.data.length →
    image[(fs1Entry image (k + 1)).lba.toNat * 4096 + o]? = f.data[o]?
  apart : ∀ k l f g, files[k]? = some f → files[l]? = some g → k ≠ l → ∀ b,
    InBlocks (fs1Entry image (k + 1)) f b → ¬ InBlocks (fs1Entry image (l + 1)) g b
  behind : ∀ k f, files[k]? = some f → ¬ InBlocks (fs1Entry image (k + 1)) f 0

/-- Every file before one that is not empty ends with a block. -/
def Aligned (files : List InFile) : Prop :=
  ∀ (k l : Nat) (f g : InFile), files[k]? = some f → files[l]? = some g → k < l → g.data ≠ [] →
    4096 ∣ f.data.length

/-- The block behind the files. -/
def endLba (files : List InFile) : Nat := 1 + (files.map fun f => blocksOf f.data.length).sum

/-! ## Names -/

section
variable {pathname : CStr}

theorem nameLoop_spec (n : Nat) :
    nameLoop pathname n ≤ n ∧
      (∀ i, nameLoop pathname n < i → i ≤ n → pathname.byte i ≠ slash) ∧
        (nameLoop pathname n = 0 ∨ pathname.byte (nameLoop pathname n) = slash) := by
  induction n with
  | zero => exact ⟨Nat.le_refl 0, fun i hlt hle => absurd hlt (by omega), .inl rfl⟩
  | succ n ih =>
    rw [nameLoop]
    by_cases hslash : pathname.byte (n + 1) = slash
    · rw [if_neg (not_not.mpr hslash)]
      exact ⟨Nat.le_refl _, fun i hlt hle => absurd hlt (by omega), .inr hslash⟩
    · rw [if_pos hslash]
      obtain ⟨hle, hbehind, hat⟩ := ih
      refine ⟨by omega, fun i hlt hi => ?_, hat⟩
      rcases Nat.lt_or_eq_of_le hi with hi | rfl
      · exact hbehind i hlt (by omega)
      · exact hslash

/-- The base name of a path with a directory. -/
theorem baseName_of_split {l r : List (BitVec 8)} (hchars : pathname.chars = l ++ r)
    (hl : l = [] ∨ l.getLast? = some slash) (hr : ∀ c ∈ r, c ≠ slash) :
    baseName pathname = r := by
  have hrev : (r.reverse).takeWhile (· ≠ slash) = r.reverse :=
    List.takeWhile_eq_self_iff.mpr fun c hc => by
      simpa using hr c (List.mem_reverse.mp hc)
  rw [baseName, hchars, List.reverse_append, List.takeWhile_append, hrev, if_pos rfl]
  have hend : l.reverse.takeWhile (· ≠ slash) = [] := by
    rcases hl with rfl | hl
    · rfl
    · rw [← List.head?_reverse] at hl
      cases hl' : l.reverse with
      | nil => rfl
      | cons c rest =>
        rw [hl', List.head?_cons, Option.some.injEq] at hl
        rw [List.takeWhile_cons, if_neg (by simp [hl])]
  rw [hend, List.append_nil, List.reverse_reverse]

/-- The name in the entry is the base name. -/
theorem fileName_eq (pathname : CStr) : fileName pathname = baseName pathname := by
  obtain ⟨hle, hbehind, hat⟩ := @nameLoop_spec pathname (strlen pathname)
  have hlen : strlen pathname = pathname.chars.length := rfl
  unfold fileName
  generalize nameLoop pathname (strlen pathname) = n at hle hbehind hat ⊢
  have hdrop : ∀ m, n ≤ m → (pathname.byte n = slash → n < m) →
      ∀ c ∈ pathname.chars.drop m, c ≠ slash := by
    intro m hm hslash c hc
    obtain ⟨i, hi, rfl⟩ := List.getElem_of_mem hc
    rw [List.length_drop] at hi
    rw [List.getElem_drop, ← pathname.byte_of_lt (by omega)]
    rcases Nat.eq_or_lt_of_le (show n ≤ m + i by omega) with heq | hlt
    · intro h
      rw [← heq] at h
      have := hslash h
      omega
    · exact hbehind (m + i) hlt (by omega)
  by_cases hslash : pathname.byte n = slash
  · simp only [if_pos hslash]
    have hn : n < pathname.chars.length := by
      by_contra hge
      rw [(pathname.byte_eq_zero_iff n).mpr (by omega)] at hslash
      exact absurd hslash (by decide)
    refine (baseName_of_split (List.take_append_drop (n + 1) _).symm (.inr ?_)
      (hdrop (n + 1) (by omega) fun _ => by omega)).symm
    rw [List.take_add_one, List.getElem?_eq_getElem hn, Option.toList_some,
      List.getLast?_append, ← pathname.byte_of_lt hn, hslash]
    rfl
  · simp only [if_neg hslash]
    have hn : n = 0 := hat.resolve_right hslash
    exact (baseName_of_split (List.take_append_drop n _).symm (.inl (by rw [hn, List.take_zero]))
      (hdrop n (Nat.le_refl n) fun h => absurd h hslash)).symm

end

/-! ## The copy -/

/-- The disk file holds `data` behind its first block, which is not written yet. -/
structure Written (disk : OutFile) (data : List (BitVec 8)) : Prop where
  offset : disk.offset = pageSize + data.length
  short : disk.bytes.length ≤ disk.offset
  before : disk.before = List.replicate pageSize 0 ++ data
  behind : disk.bytes.drop pageSize = data

theorem written_nil : Written (OutFile.lseek ⟨[], 0⟩ pageSize) [] where
  offset := rfl
  short := Nat.zero_le _
  before := by
    simp only [OutFile.before, OutFile.lseek, List.take_nil, List.nil_append, List.length_nil,
      Nat.sub_zero, List.append_nil]
  behind := List.drop_nil

/-- A write at the end. -/
theorem Written.write {disk : OutFile} {data : List (BitVec 8)} (h : Written disk data)
    (buf : List (BitVec 8)) : Written (disk.write buf) (data ++ buf) := by
  have hdrop : disk.bytes.drop (disk.offset + buf.length) = [] :=
    List.drop_eq_nil_of_le (by have := h.short; omega)
  have hbytes : (disk.write buf).bytes = List.replicate pageSize 0 ++ (data ++ buf) := by
    rw [OutFile.write, hdrop, h.before, List.append_nil, List.append_assoc]
  have hoffset : (disk.write buf).offset = pageSize + (data ++ buf).length := by
    rw [OutFile.write, h.offset, List.length_append, Nat.add_assoc]
  have hlen : (disk.write buf).bytes.length = (disk.write buf).offset := by
    rw [hbytes, hoffset, List.length_append, List.length_replicate]
  refine ⟨hoffset, Nat.le_of_eq hlen, ?_, ?_⟩
  · rw [OutFile.before, List.take_of_length_le (Nat.le_of_eq hlen), hlen, Nat.sub_self,
      List.replicate_zero, List.append_nil, hbytes]
  · rw [hbytes, List.drop_append_of_le_length (by rw [List.length_replicate]),
      List.drop_of_length_le (by rw [List.length_replicate]), List.nil_append]

theorem blocksOf_zero : blocksOf 0 = 0 := rfl

/-- A read that fills the buffer, and the rest. -/
theorem blocksOf_take_drop {data : List (BitVec 8)} (hne : data ≠ []) :
    blocksOf data.length
      = ((data.take pageSize).length + pageSize - 1) / pageSize
        + blocksOf (data.drop pageSize).length := by
  have hpos := List.length_pos_iff.mpr hne
  rw [List.length_take, List.length_drop]
  unfold blocksOf pageSize
  rcases Nat.le_total 4096 data.length with hle | hle
  · rw [Nat.min_eq_left hle]
    omega
  · rw [Nat.min_eq_right hle, Nat.sub_eq_zero_of_le hle]
    omega

/-- The copy of a file, when its blocks can be counted. -/
theorem copyLoop_spec {fuel : Nat} {data pre : List (BitVec 8)} {lba : Nat} {disk : OutFile}
    (hfuel : data.length ≤ fuel) (hdisk : Written disk pre) (hlba : lba < 2 ^ 31) :
    if lba + blocksOf data.length < 2 ^ 31 then
      ∃ disk', copyLoop fuel data lba disk = some (lba + blocksOf data.length, disk') ∧
        Written disk' (pre ++ data)
    else copyLoop fuel data lba disk = none := by
  induction fuel generalizing data pre lba disk with
  | zero =>
    obtain rfl := List.length_eq_zero_iff.mp (Nat.le_zero.mp hfuel)
    rw [List.length_nil, blocksOf_zero, Nat.add_zero, if_pos hlba, List.append_nil]
    exact ⟨disk, rfl, hdisk⟩
  | succ fuel ih =>
    rw [copyLoop]
    by_cases hne : data = []
    · rw [hne, List.length_nil, blocksOf_zero, Nat.add_zero, if_pos hlba, List.append_nil]
      exact ⟨disk, rfl, hdisk⟩
    · have hbuf : data.take pageSize ≠ [] := by
        rw [Ne, List.take_eq_nil_iff, not_or]
        exact ⟨by decide, hne⟩
      have hpos := List.length_pos_iff.mpr hne
      simp only [if_neg hbuf]
      rw [blocksOf_take_drop hne, ← Nat.add_assoc]
      by_cases hsmall : lba + ((data.take pageSize).length + pageSize - 1) / pageSize < 2 ^ 31
      · rw [if_pos hsmall]
        have hrest : (data.drop pageSize).length ≤ fuel := by
          rw [List.length_drop]
          unfold pageSize
          omega
        have := ih hrest (hdisk.write (data.take pageSize)) hsmall
        rwa [List.append_assoc, List.take_append_drop] at this
      · rw [if_neg hsmall, if_neg (by omega)]

/-! ## The directory -/

/-- The directory once the files are copied. -/
def dirOf (files : List InFile) : Vector Fs1Inode fs1MaxFiles :=
  Vector.ofFn fun i =>
    if i.val = 0 then noEntry
    else (files[i.val - 1]?).elim noEntry fun f => dirEntry f (endLba (files.take (i.val - 1)))

theorem dirOf_nil : dirOf [] = Vector.replicate fs1MaxFiles noEntry := by
  refine Vector.ext fun i hi => ?_
  rw [dirOf, Vector.getElem_ofFn, Vector.getElem_replicate, List.getElem?_nil]
  simp only [Option.elim_none, ite_self]

theorem dirOf_append (pre : List InFile) (f : InFile) :
    dirOf (pre ++ [f])
      = (dirOf pre).setIfInBounds (pre.length + 1) (dirEntry f (endLba pre)) := by
  refine Vector.ext fun i hi => ?_
  rw [Vector.getElem_setIfInBounds]
  unfold dirOf
  rw [Vector.getElem_ofFn, Vector.getElem_ofFn]
  simp only
  by_cases h0 : i = 0
  · rw [if_pos h0, if_neg (by omega), if_pos h0]
  · rw [if_neg h0, if_neg h0]
    rcases Nat.lt_trichotomy (i - 1) pre.length with hlt | heq | hgt
    · rw [if_neg (by omega), List.getElem?_append_left hlt,
        List.take_append_of_le_length (Nat.le_of_lt hlt)]
    · rw [if_pos (by omega), heq, List.getElem?_concat_length, Option.elim_some,
        List.take_left']
      rfl
    · have hlong : (pre ++ [f]).length ≤ i - 1 := by
        rw [List.length_append, List.length_singleton]
        omega
      rw [if_neg (by omega), List.getElem?_eq_none hlong, List.getElem?_eq_none (by omega)]
      rfl

/-- The image that mkdx writes. -/
def imageOf (files : List InFile) : List (BitVec 8) :=
  dirBytes (dirOf files) ++ files.flatMap InFile.data

/-- The files `pre` are copied. -/
structure Laid (pre : List InFile) (s : Mkdx) : Prop where
  dir : s.dir = dirOf pre
  nbFile : s.nbFile = pre.length + 1
  lba : s.currentLba = endLba pre
  small : endLba pre < 2 ^ 31
  disk : Written s.disk (pre.flatMap InFile.data)

theorem laid_nil : Laid [] ⟨Vector.replicate fs1MaxFiles noEntry, 1, 1,
    OutFile.lseek ⟨[], 0⟩ pageSize⟩ where
  dir := dirOf_nil.symm
  nbFile := rfl
  lba := rfl
  small := by decide
  disk := written_nil

theorem endLba_append (pre : List InFile) (f : InFile) :
    endLba (pre ++ [f]) = endLba pre + blocksOf f.data.length := by
  unfold endLba
  rw [List.map_append, List.map_singleton, List.sum_append, List.sum_singleton, Nat.add_assoc]

theorem endLba_le_append (pre files : List InFile) : endLba pre ≤ endLba (pre ++ files) := by
  unfold endLba
  rw [List.map_append, List.sum_append]
  omega

/-- The loop of `main`. -/
theorem mkdxLoop_spec {files pre : List InFile} {s : Mkdx} (h : Laid pre s)
    (hlen : (pre ++ files).length < fs1MaxFiles) :
    if endLba (pre ++ files) < 2 ^ 31 then
      ∃ s', mkdxLoop files s = some s' ∧ Laid (pre ++ files) s'
    else mkdxLoop files s = none := by
  induction files generalizing pre s with
  | nil =>
    rw [List.append_nil, if_pos h.small]
    exact ⟨s, rfl, h⟩
  | cons f files ih =>
    have hroom : s.nbFile < fs1MaxFiles := by
      rw [List.length_append, List.length_cons] at hlen
      rw [h.nbFile]
      omega
    rw [mkdxLoop, if_pos hroom, copyFileToDisk]
    have hcopy := copyLoop_spec (Nat.le_refl f.data.length) h.disk (h.lba ▸ h.small)
    have happend : pre ++ f :: files = (pre ++ [f]) ++ files := by
      rw [List.append_assoc, List.singleton_append]
    rw [happend] at hlen ⊢
    rw [h.lba, ← endLba_append] at hcopy
    rw [h.lba]
    by_cases hsmall : endLba (pre ++ [f]) < 2 ^ 31
    · rw [if_pos hsmall] at hcopy
      obtain ⟨disk', heq, hdisk⟩ := hcopy
      rw [heq, Option.map_some, Option.bind_some]
      refine ih ⟨?_, ?_, rfl, hsmall, ?_⟩ hlen
      · rw [dirOf_append, ← h.dir, h.nbFile]
      · rw [List.length_append, List.length_singleton, h.nbFile]
      · rwa [List.flatMap_append, List.flatMap_singleton]
    · rw [if_neg hsmall] at hcopy
      have hle := endLba_le_append (pre ++ [f]) files
      rw [hcopy, if_neg (by omega)]
      rfl

/-- `main`, when the blocks can be counted. -/
theorem mkdx_spec {files : List InFile} (hne : files ≠ []) (hlen : files.length < fs1MaxFiles) :
    if endLba files < 2 ^ 31 then
      mkdx files = some (imageOf files)
    else mkdx files = none := by
  have hloop := mkdxLoop_spec laid_nil hlen
  rw [List.nil_append] at hloop
  rw [mkdx, if_neg hne]
  by_cases hsmall : endLba files < 2 ^ 31
  · rw [if_pos hsmall] at hloop ⊢
    obtain ⟨s, heq, hlaid⟩ := hloop
    simp only [heq, Option.map_some]
    have hlength : (dirBytes s.dir).length = pageSize := by
      rw [dirBytes, List.length_map, List.length_range]
      rfl
    rw [OutFile.write, OutFile.before, OutFile.lseek]
    simp only [List.take_zero, Nat.zero_sub, List.replicate_zero, List.nil_append, Nat.zero_add]
    rw [hlength, hlaid.disk.behind, hlaid.dir, imageOf]
  · rw [if_neg hsmall] at hloop ⊢
    simp only [hloop, Option.map_none]

/-! ## The volume -/

/-- An entry is read as it was written. -/
theorem fs1Entry_dirBytes (dir : Vector Fs1Inode fs1MaxFiles) (rest : List (BitVec 8)) {i : Nat}
    (hi : i < fs1MaxFiles) : fs1Entry (dirBytes dir ++ rest) i = dir[i] := by
  have hbyte : ∀ j, j < 32 →
      (dirBytes dir ++ rest).getD (32 * i + j) 0 = entryByte dir[i] j := by
    intro j hj
    have hmax : fs1MaxFiles = 128 := rfl
    have hlt : 32 * i + j < (dirBytes dir).length := by
      rw [dirBytes, List.length_map, List.length_range]
      omega
    rw [List.getD_append _ _ _ _ hlt, List.getD_eq_getElem _ _ hlt]
    simp only [dirBytes, List.getElem_map, List.getElem_range]
    rw [show (32 * i + j) / 32 = i by omega, show (32 * i + j) % 32 = j by omega,
      List.getD_eq_getElem _ _ (by rw [Vector.length_toList]; exact hi), Vector.getElem_toList]
  generalize dir[i] = e at hbyte
  have hword : ∀ (v : BitVec 32) (j : Nat), j + 4 ≤ 32 →
      (∀ k, k < 4 → entryByte e (j + k) = v.extractLsb' (8 * k) 8) →
        Mem.readWord (fun p => (dirBytes dir ++ rest).getD p 0) (32 * i + j) = v := by
    intro v j hj hv
    have hat : ∀ k, k < 4 → (dirBytes dir ++ rest).getD (32 * i + j + k) 0
        = v.extractLsb' (8 * k) 8 := fun k hk => by
      rw [Nat.add_assoc, hbyte (j + k) (by omega), hv k hk]
    rw [Mem.readWord, hat 3 (by omega), hat 2 (by omega), hat 1 (by omega),
      show (dirBytes dir ++ rest).getD (32 * i + j) 0 = v.extractLsb' 0 8 from hat 0 (by omega)]
    exact Mem.bytes_append v
  obtain ⟨name, lba, size⟩ := e
  rw [fs1Entry, Fs1Inode.mk.injEq]
  refine ⟨Vector.ext fun j hj => ?_, hword lba 24 (by omega) fun k hk => ?_,
    hword size 28 (by omega) fun k hk => ?_⟩
  · have hj' : j < 24 := hj
    rw [Vector.getElem_ofFn, hbyte j (by omega), entryByte, if_pos hj', Fs1Inode.nameByte,
      List.getD_eq_getElem _ _ (by rw [Vector.length_toList]; exact hj), Vector.getElem_toList]
  · rw [entryByte, if_neg (by omega), if_pos (by omega), Nat.add_sub_cancel_left]
  · rw [entryByte, if_neg (by omega), if_neg (by omega), Nat.add_sub_cancel_left]

section
variable {files : List InFile} {k : Nat} {f : InFile}

theorem dirOf_zero (files : List InFile) : (dirOf files)[0] = noEntry := by
  rw [dirOf, Vector.getElem_ofFn]
  exact if_pos rfl

/-- The entry of a file of the list. -/
theorem dirOf_getElem (hk : files[k]? = some f) (hlt : k + 1 < fs1MaxFiles) :
    (dirOf files)[k + 1] = dirEntry f (endLba (files.take k)) := by
  rw [dirOf, Vector.getElem_ofFn]
  simp only [Nat.add_one_ne_zero, if_false, Nat.add_sub_cancel, hk, Option.elim_some]

theorem nameByte_dirEntry (f : InFile) (lba : Nat) {j : Nat} (hj : j < 24) :
    (dirEntry f lba).nameByte j = if j < 23 then (baseName f.pathname).getD j 0 else 0 := by
  have hj' : j < fs1NameLen := hj
  rw [Fs1Inode.nameByte, List.getD_eq_getElem _ _ (by rw [Vector.length_toList]; exact hj),
    Vector.getElem_toList, dirEntry, Vector.getElem_ofFn, fileName_eq]

theorem nameByte_noEntry {j : Nat} (hj : j < 24) : noEntry.nameByte j = 0 := by
  have hj' : j < fs1NameLen := hj
  rw [Fs1Inode.nameByte, List.getD_eq_getElem _ _ (by rw [Vector.length_toList]; exact hj),
    Vector.getElem_toList, noEntry, Vector.getElem_replicate]

theorem baseName_nonzero (pathname : CStr) : ∀ c ∈ baseName pathname, c ≠ 0 := by
  intro c hc
  have hmem := (List.takeWhile_prefix _).subset (List.mem_reverse.mp hc)
  exact pathname.nonzero c (List.mem_reverse.mp hmem)

/-- The base name as a string. -/
def baseStr (pathname : CStr) : CStr := ⟨baseName pathname, baseName_nonzero pathname⟩

/-- `strncmp` of a base name with the name in an entry. -/
theorem strncmp_dirEntry {pathname : CStr} {lba : Nat} (hname : (baseName pathname).length ≤ 23)
    (hf : (baseName f.pathname).length ≤ 23) :
    strncmp (fun i => (baseName pathname).getD i 0) (dirEntry f lba).nameByte fs1NameLen = 0
      ↔ baseName pathname = baseName f.pathname := by
  have hbyte : ∀ i, i < fs1NameLen → (dirEntry f lba).nameByte i = (baseStr f.pathname).byte i := by
    intro i hi
    rw [nameByte_dirEntry f lba hi]
    split
    · rfl
    · exact (List.getD_eq_default _ _ (show (baseName f.pathname).length ≤ i by omega)).symm
  have hlt : strlen (baseStr pathname) < fs1NameLen := Nat.lt_succ_of_le hname
  rw [show (fun i => (baseName pathname).getD i 0) = (baseStr pathname).byte from rfl,
    strncmp_eq_iff hlt hbyte, baseStr, baseStr, CStr.mk.injEq]

theorem strncmp_noEntry {pathname : CStr} (hname : (baseName pathname).length ≤ 23) :
    strncmp (fun i => (baseName pathname).getD i 0) noEntry.nameByte fs1NameLen = 0
      ↔ baseName pathname = [] := by
  have hbyte : ∀ i, i < fs1NameLen → noEntry.nameByte i = CStr.byte ⟨[], by simp⟩ i :=
    fun i hi => nameByte_noEntry hi
  have hlt : strlen (baseStr pathname) < fs1NameLen := Nat.lt_succ_of_le hname
  rw [show (fun i => (baseName pathname).getD i 0) = (baseStr pathname).byte from rfl,
    strncmp_eq_iff hlt hbyte, baseStr, CStr.mk.injEq]

/-- Base names that an entry can hold, no two the same.  A pathname that ends with `/`
names no file. -/
structure Named (files : List InFile) : Prop where
  nonempty : ∀ f ∈ files, baseName f.pathname ≠ []
  short : ∀ f ∈ files, (baseName f.pathname).length ≤ 23
  distinct : (files.map fun f => baseName f.pathname).Nodup

/-- The search of `fs1_lookup`. -/
theorem findIdx_dirOf (hnamed : Named files) (hlen : files.length < fs1MaxFiles)
    (hk : files[k]? = some f) :
    (dirOf files).toList.findIdx? (fun e =>
      strncmp (fun i => (baseName f.pathname).getD i 0) e.nameByte fs1NameLen = 0)
        = some (k + 1) := by
  obtain ⟨hlt, hf⟩ := List.getElem?_eq_some_iff.mp hk
  have hmem : f ∈ files := hf ▸ List.getElem_mem hlt
  have hshort := hnamed.short f hmem
  have hlist : (dirOf files).toList.length = fs1MaxFiles := Vector.length_toList
  rw [List.findIdx?_eq_some_iff_getElem]
  refine ⟨by omega, ?_, fun j hj => ?_⟩
  · rw [Vector.getElem_toList, dirOf_getElem hk (by omega), decide_eq_true_eq,
      strncmp_dirEntry hshort hshort]
  · rw [Vector.getElem_toList, decide_eq_true_eq]
    cases j with
    | zero =>
      rw [dirOf_zero, strncmp_noEntry hshort]
      exact hnamed.nonempty f hmem
    | succ j =>
      -- an earlier file has another name
      have hj' : j < files.length := by omega
      rw [dirOf_getElem (List.getElem?_eq_getElem hj') (by omega),
        strncmp_dirEntry hshort (hnamed.short _ (List.getElem_mem hj'))]
      intro heq
      have hlt' : k < (files.map fun f => baseName f.pathname).length := by rwa [List.length_map]
      have hj'' : j < (files.map fun f => baseName f.pathname).length := by rwa [List.length_map]
      have hsame : (files.map fun f => baseName f.pathname)[k]
          = (files.map fun f => baseName f.pathname)[j] := by
        rw [List.getElem_map, List.getElem_map, hf]
        exact heq
      have := (hnamed.distinct.getElem_inj_iff).mp hsame
      omega

/-- `fs1_lookup`, from its search on. -/
theorem fs1Lookup_of_findIdx {room : Nat → Bool} {vols : SbPtr → Fs1Volume} {sb : SbPtr}
    {dir : Option InodePtr} {name : List (BitVec 8)} {st : Vfs} {ino : Nat} {e : Fs1Inode}
    (hino : ino ≠ 0) (hroom : room st.kmallocs = true) (he : (vols sb).entries[ino]? = some e)
    (hfind : (vols sb).entries.toList.findIdx?
      (fun e => strncmp (fun i => name.getD i 0) e.nameByte fs1NameLen = 0) = some ino) :
    ∃ inode st' i, fs1Lookup room vols sb dir name st = (some inode, st') ∧
      st'.inodes[inode]? = some i ∧ i.ino = ino ∧ i.data = some e := by
  unfold fs1Lookup vfsInodeLookup
  rw [hfind]
  simp only [fs1NewInode, fs1RetrieveInode, he, vfsInodeCreate, hroom, if_true, if_pos hino]
  let mode := sIfreg ||| (sIroth ||| sIxoth ||| sIrusr ||| sIxusr)
  refine ⟨st.inodes.length, _, ⟨sb, ino, e.size, mode, 2, 0, some e⟩, rfl, ?_, rfl, rfl⟩
  rw [vfsInodeGet, List.getElem?_modify_eq, List.getElem?_concat_length]
  rfl

end

/-! ## Blocks and bytes -/

section
variable {files : List InFile} {k : Nat} {f : InFile}

theorem le_blocksOf (n : Nat) : n ≤ blocksOf n * 4096 := by
  unfold blocksOf
  omega

theorem blocksOf_mul_eq_iff (n : Nat) : blocksOf n * 4096 = n ↔ 4096 ∣ n := by
  unfold blocksOf
  omega

theorem endLba_cons (f : InFile) (files : List InFile) :
    endLba (f :: files) = endLba files + blocksOf f.data.length := by
  unfold endLba
  rw [List.map_cons, List.sum_cons]
  omega

theorem length_le_blocks (files : List InFile) :
    4096 + (files.flatMap InFile.data).length ≤ endLba files * 4096 := by
  induction files with
  | nil => decide
  | cons f files ih =>
    have hle := le_blocksOf f.data.length
    rw [endLba_cons, List.flatMap_cons, List.length_append, Nat.add_mul]
    omega

theorem fill_iff {e n b m : Nat} (h : 4096 + n ≤ e) (h' : m ≤ b) :
    e + b = 4096 + (m + n) ↔ b = m ∧ e = 4096 + n := by
  omega

/-- Files that end with a block fill their blocks, and only they do. -/
theorem blocks_eq_length_iff (files : List InFile) :
    endLba files * 4096 = 4096 + (files.flatMap InFile.data).length
      ↔ ∀ f ∈ files, 4096 ∣ f.data.length := by
  induction files with
  | nil => simp [endLba]
  | cons f files ih =>
    have hle := length_le_blocks files
    have hle' := le_blocksOf f.data.length
    rw [List.forall_mem_cons, ← ih, ← blocksOf_mul_eq_iff, endLba_cons, List.flatMap_cons,
      List.length_append, Nat.add_mul]
    exact fill_iff hle hle'

theorem endLba_take_succ (hk : files[k]? = some f) :
    endLba (files.take (k + 1)) = endLba (files.take k) + blocksOf f.data.length := by
  rw [List.take_add_one, hk, Option.toList_some, endLba_append]

theorem endLba_take_le (files : List InFile) {k l : Nat} (h : k ≤ l) :
    endLba (files.take k) ≤ endLba (files.take l) := by
  have htake : files.take k = (files.take l).take k := by
    rw [List.take_take, Nat.min_eq_left h]
  rw [htake]
  have := endLba_le_append ((files.take l).take k) ((files.take l).drop k)
  rwa [List.take_append_drop] at this

theorem endLba_pos (files : List InFile) : 1 ≤ endLba files := Nat.le_add_right ..

theorem take_succ_drop (hk : files[k]? = some f) :
    files = files.take k ++ f :: files.drop (k + 1) := by
  obtain ⟨hlt, rfl⟩ := List.getElem?_eq_some_iff.mp hk
  rw [← List.drop_eq_getElem_cons hlt, List.take_append_drop]

/-- A byte of a file in the image. -/
theorem getElem?_datas (hk : files[k]? = some f) {o : Nat} (ho : o < f.data.length) :
    (files.flatMap InFile.data)[((files.take k).flatMap InFile.data).length + o]? = f.data[o]? := by
  have hsplit : files.flatMap InFile.data = (files.take k).flatMap InFile.data
      ++ (f.data ++ (files.drop (k + 1)).flatMap InFile.data) := by
    rw [← List.flatMap_cons, ← List.flatMap_append, ← take_succ_drop hk]
  rw [hsplit, List.getElem?_append_right (Nat.le_add_right _ _), Nat.add_sub_cancel_left,
    List.getElem?_append_left ho]

end

/-! ## The image of mkdx -/

section
variable {files : List InFile}

theorem fs1Entry_imageOf {k : Nat} {f : InFile} (hlen : files.length < fs1MaxFiles)
    (hk : files[k]? = some f) :
    fs1Entry (imageOf files) (k + 1) = dirEntry f (endLba (files.take k)) := by
  have hlt := (List.getElem?_eq_some_iff.mp hk).1
  rw [imageOf, fs1Entry_dirBytes _ _ (show k + 1 < fs1MaxFiles by omega), dirOf_getElem hk (by omega)]

theorem lba_imageOf {k : Nat} {f : InFile} (hlen : files.length < fs1MaxFiles)
    (hsmall : endLba files < 2 ^ 31) (hk : files[k]? = some f) :
    (fs1Entry (imageOf files) (k + 1)).lba.toNat = endLba (files.take k) := by
  have hle := endLba_take_le files (Nat.le_of_lt (List.getElem?_eq_some_iff.mp hk).1)
  rw [List.take_length] at hle
  rw [fs1Entry_imageOf hlen hk, dirEntry, BitVec.toNat_ofNat, Nat.mod_eq_of_lt (by omega)]

theorem fs1Entries_imageOf (files : List InFile) : fs1Entries (imageOf files) = dirOf files := by
  refine Vector.ext fun i hi => ?_
  rw [fs1Entries, Vector.getElem_ofFn, imageOf, fs1Entry_dirBytes _ _ hi]

/-- The lookup on the image. -/
theorem finds_imageOf {k : Nat} {f : InFile} (hnamed : Named files)
    (hlen : files.length < fs1MaxFiles) (hk : files[k]? = some f) :
    Finds (imageOf files) (baseName f.pathname) (k + 1) := by
  intro room vols sb dir st hentries hroom
  have hlt := (List.getElem?_eq_some_iff.mp hk).1
  rw [fs1Entry_imageOf hlen hk]
  refine fs1Lookup_of_findIdx (Nat.succ_ne_zero k) hroom ?_ ?_
  · rw [hentries, fs1Entries_imageOf, Vector.getElem?_eq_getElem (by omega), dirOf_getElem hk]
  · rw [hentries, fs1Entries_imageOf]
    exact findIdx_dirOf hnamed hlen hk

/-- The byte of the image at an offset from the block of an entry. -/
theorem getElem?_imageOf (b o : Nat) (hb : 1 ≤ b) :
    (imageOf files)[b * 4096 + o]? = (files.flatMap InFile.data)[(b - 1) * 4096 + o]? := by
  have hdir : (dirBytes (dirOf files)).length = 4096 := by
    rw [dirBytes, List.length_map, List.length_range]
    rfl
  rw [imageOf, List.getElem?_append_right (by omega), hdir,
    show b * 4096 + o - 4096 = (b - 1) * 4096 + o by omega]

/-- Files that end with a block are found in their blocks. -/
theorem content_imageOf (haligned : Aligned files) (hlen : files.length < fs1MaxFiles)
    (hsmall : endLba files < 2 ^ 31) {k : Nat} {f : InFile} (hk : files[k]? = some f) {o : Nat}
    (ho : o < f.data.length) :
    (imageOf files)[(fs1Entry (imageOf files) (k + 1)).lba.toNat * 4096 + o]? = f.data[o]? := by
  have hne : f.data ≠ [] := List.length_pos_iff.mp (by omega)
  have hfull : ∀ g ∈ files.take k, 4096 ∣ g.data.length := by
    intro g hg
    obtain ⟨j, hj, rfl⟩ := List.getElem_of_mem hg
    have hjk : j < k := by
      rw [List.length_take] at hj
      omega
    refine haligned j k _ f ?_ hk hjk hne
    rw [← List.getElem?_eq_getElem hj, List.getElem?_take_of_lt hjk]
  have hpos := endLba_pos (files.take k)
  have heq := (blocks_eq_length_iff (files.take k)).mpr hfull
  have hat : (endLba (files.take k) - 1) * 4096 + o
      = ((files.take k).flatMap InFile.data).length + o := by
    rw [Nat.sub_mul, heq, Nat.one_mul, Nat.add_sub_cancel_left]
  rw [lba_imageOf hlen hsmall hk, getElem?_imageOf _ _ hpos, hat]
  exact getElem?_datas hk ho

/-- The image agrees with the files when these end with a block. -/
theorem agrees_of_aligned (hnamed : Named files) (hlen : files.length < fs1MaxFiles)
    (haligned : Aligned files) (hsmall : endLba files < 2 ^ 31) : Agrees files (imageOf files) where
  found := fun k f hk => finds_imageOf hnamed hlen hk
  size := fun k f hk => by rw [fs1Entry_imageOf hlen hk, dirEntry]
  content := fun k f hk o ho => content_imageOf haligned hlen hsmall hk ho
  apart := fun k l f g hk hl hne b hb hb' => by
    unfold InBlocks at hb hb'
    rw [lba_imageOf hlen hsmall hk, ← endLba_take_succ hk] at hb
    rw [lba_imageOf hlen hsmall hl, ← endLba_take_succ hl] at hb'
    rcases Nat.lt_or_gt_of_ne hne with hlt | hlt
    · have := endLba_take_le files (show k + 1 ≤ l by omega)
      omega
    · have := endLba_take_le files (show l + 1 ≤ k by omega)
      omega
  behind := fun k f hk hb => by
    have hpos := endLba_pos (files.take k)
    rw [InBlocks, lba_imageOf hlen hsmall hk] at hb
    omega

/-- The last file that is not empty. -/
theorem exists_last {l : Nat} {g : InFile} (hl : files[l]? = some g) (hg : g.data ≠ []) :
    ∃ m f, l ≤ m ∧ files[m]? = some f ∧ f.data ≠ [] ∧ ∀ j f', m < j → files[j]? = some f' →
      f'.data = [] := by
  by_contra hnone
  have hall : ∀ n, ∃ m f, l + n ≤ m ∧ files[m]? = some f ∧ f.data ≠ [] := by
    intro n
    induction n with
    | zero => exact ⟨l, g, Nat.le_refl l, hl, hg⟩
    | succ n ih =>
      obtain ⟨m, f, hm, hf, hne⟩ := ih
      by_contra hend
      refine hnone ⟨m, f, by omega, hf, hne, fun j f' hj hf' => ?_⟩
      by_contra hne'
      exact hend ⟨j, f', by omega, hf', hne'⟩
  obtain ⟨m, f, hm, hf, -⟩ := hall files.length
  have := (List.getElem?_eq_some_iff.mp hf).1
  omega

/-- When the last byte of the files is found, the files end with a block. -/
theorem aligned_of_content (hlen : files.length < fs1MaxFiles) (hsmall : endLba files < 2 ^ 31)
    (hcontent : ∀ k f, files[k]? = some f → ∀ o, o < f.data.length →
      (imageOf files)[(fs1Entry (imageOf files) (k + 1)).lba.toNat * 4096 + o]? = f.data[o]?) :
    Aligned files := by
  intro k l f g hk hl hkl hne
  obtain ⟨m, last, hlm, hm, hlast, hempty⟩ := exists_last hl hne
  have hpos := List.length_pos_iff.mpr hlast
  have hbyte := hcontent m last hm (last.data.length - 1) (by omega)
  rw [lba_imageOf hlen hsmall hm, getElem?_imageOf _ _ (endLba_pos _)] at hbyte
  have hin := (List.getElem?_eq_some_iff.mp
    (hbyte.trans (List.getElem?_eq_getElem (by omega)))).1
  have hbehind : (files.drop (m + 1)).flatMap InFile.data = [] := by
    rw [List.flatMap_eq_nil_iff]
    intro f' hf'
    obtain ⟨j, hj, rfl⟩ := List.getElem_of_mem hf'
    refine hempty (m + 1 + j) _ (by omega) ?_
    rw [← List.getElem?_eq_getElem hj, List.getElem?_drop]
  have hall : (files.flatMap InFile.data).length
      = ((files.take m).flatMap InFile.data).length + last.data.length := by
    rw [← List.length_append, ← List.append_nil (_ ++ last.data), ← hbehind, List.append_assoc,
      ← List.flatMap_cons, ← List.flatMap_append, ← take_succ_drop hm]
  have hle := length_le_blocks (files.take m)
  have hfull := (blocks_eq_length_iff (files.take m)).mp (by omega)
  refine hfull f (List.mem_of_getElem? (i := k) ?_)
  rw [List.getElem?_take_of_lt (by omega), hk]

/-- mkdx and fs1 agree exactly on files that each end with a block, up to the last that
is not empty, and whose blocks an `int` can count. -/
theorem mkdx_agrees_iff (hne : files ≠ []) (hlen : files.length ≤ 127) (hnamed : Named files) :
    (∃ image, mkdx files = some image ∧ Agrees files image)
      ↔ Aligned files ∧ endLba files < 2 ^ 31 := by
  have hlen' : files.length < fs1MaxFiles := Nat.lt_succ_of_le hlen
  have hspec := mkdx_spec hne hlen'
  by_cases hsmall : endLba files < 2 ^ 31
  · rw [if_pos hsmall] at hspec
    constructor
    · rintro ⟨image, himage, hagrees⟩
      rw [hspec, Option.some.injEq] at himage
      subst himage
      exact ⟨aligned_of_content hlen' hsmall hagrees.content, hsmall⟩
    · rintro ⟨haligned, -⟩
      exact ⟨_, hspec, agrees_of_aligned hnamed hlen' haligned hsmall⟩
  · rw [if_neg hsmall] at hspec
    constructor
    · rintro ⟨image, himage, -⟩
      rw [hspec] at himage
      exact absurd himage (by simp)
    · rintro ⟨-, hsmall'⟩
      exact absurd hsmall' hsmall

theorem nameA_nonzero : ∀ c ∈ ([97] : List (BitVec 8)), c ≠ 0 := by decide

def nameA : CStr := ⟨[97], nameA_nonzero⟩
def nameB : CStr := ⟨[98], by decide⟩

/-- The file `a` with `n` bytes, and the file `b` with one. -/
def twoFiles (n : Nat) : List InFile := [⟨nameA, List.replicate n 97⟩, ⟨nameB, [98]⟩]

theorem twoFiles_ne (n : Nat) : twoFiles n ≠ [] := List.cons_ne_nil _ _

theorem named_twoFiles (n : Nat) : Named (twoFiles n) where
  nonempty := by
    rw [twoFiles, List.forall_mem_cons, List.forall_mem_singleton]
    exact ⟨show baseName nameA ≠ [] by decide, show baseName nameB ≠ [] by decide⟩
  short := by
    rw [twoFiles, List.forall_mem_cons, List.forall_mem_singleton]
    exact ⟨show (baseName nameA).length ≤ 23 by decide, show (baseName nameB).length ≤ 23 by decide⟩
  distinct := by
    rw [twoFiles, List.map_cons, List.map_singleton]
    exact show [baseName nameA, baseName nameB].Nodup by decide

theorem endLba_twoFiles (n : Nat) : endLba (twoFiles n) = 1 + (blocksOf n + 1) := by
  rw [twoFiles, endLba, List.map_cons, List.map_singleton, List.sum_cons, List.sum_singleton,
    List.length_replicate]
  rfl

/-- A file of one block before a file of one byte. -/
theorem mkdx_agrees_iff_twoFiles :
    ∃ image, mkdx (twoFiles 4096) = some image ∧ Agrees (twoFiles 4096) image := by
  refine (mkdx_agrees_iff (twoFiles_ne 4096) (Nat.le_add_left 2 125) (named_twoFiles 4096)).mpr
    ⟨?_, ?_⟩
  · intro k l f g hk hl hkl hne
    have hl2 : l < 2 := (List.getElem?_eq_some_iff.mp hl).1
    obtain rfl : k = 0 := by omega
    have hf : f.data = List.replicate 4096 97 := by rw [← Option.some.inj hk]
    rw [hf, List.length_replicate]
  · rw [endLba_twoFiles]
    decide

/-- A file of one byte before another: the second one is not where its entry says. -/
theorem mkdx_two_bytes :
    ¬ ∀ files : List InFile, files ≠ [] → files.length ≤ 127 → Named files →
      ∃ image, mkdx files = some image ∧ Agrees files image := by
  intro hclaim
  obtain ⟨image, himage, hagrees⟩ :=
    hclaim (twoFiles 1) (twoFiles_ne 1) (Nat.le_add_left 2 125) (named_twoFiles 1)
  have hlen : (twoFiles 1).length < fs1MaxFiles := by decide
  have hsmall : endLba (twoFiles 1) < 2 ^ 31 := by
    rw [endLba_twoFiles]
    decide
  have hspec := mkdx_spec (twoFiles_ne 1) hlen
  rw [if_pos hsmall, himage, Option.some.injEq] at hspec
  rw [hspec] at hagrees
  have haligned := aligned_of_content hlen hsmall hagrees.content
  have hdvd : 4096 ∣ 1 := haligned 0 1 _ _ rfl rfl Nat.one_pos (List.cons_ne_nil _ _)
  exact absurd hdvd (by decide)

end

end Ko6.Tools
