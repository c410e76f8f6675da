import Ko6.Fs.KfsPages

set_option autoImplicit false

/-!
# Fs: the cells of the pages of KFS

`kfs_page` and `kfs_ppage` find the cell that lists page `k` of a file each in its own way:
the first looks at the size of the file and then at the page, the second at the page and
then at the size.  For the pages 12 to 27 of a file of more than 28 pages the second stops
at the first level, where the cell has the number of a second fmap.
-/

namespace Ko6.Fs

open Ko6.Lib Ko6.Common

/-! ## Cells -/

/-- The cell that `kfs_page` reads. -/
def pageCell (s : Kfs) (inode pgOffset : Nat) : Option PagePtr :=
  let size := (s.inode inode).size
  if size = 0 ∨ pgOffset > size / 4096 then none
  else if pgOffset < 12 then some (.inode inode pgOffset)
  else
    let pgOffset := pgOffset - 12
    let map1 := (s.inode inode).fmap
    if size ≤ 28 * 4096 then some (.fmap (16 * map1 + pgOffset))
    else
      let map2 := s.fmaps (16 * map1 + pgOffset / 16)
      some (.fmap (16 * map2 + pgOffset % 16))

/-- The page is one of the file. -/
def InFile (s : Kfs) (i k : Nat) : Prop := k * 4096 < (s.inode i).size

/-- The fmap in the entry `j` of the first level. -/
def secondMap (s : Kfs) (i j : Nat) : Nat := s.fmaps (16 * (s.inode i).fmap + j)

/-- The pages from the twelfth on are listed in the fmap of the inode, or, in a file of more
than 28 pages, in other fmaps that this one lists. -/
structure MapsOk (s : Kfs) (i : Nat) : Prop where
  size_le : (s.inode i).size ≤ 268 * 4096
  first : InFile s i 12 → (s.inode i).fmap < kfsMaxFmap
  second : InFile s i 28 → ∀ j, InFile s i (12 + 16 * j) →
    secondMap s i j ≠ 0 ∧ secondMap s i j < kfsMaxFmap ∧ secondMap s i j ≠ (s.inode i).fmap
  once : InFile s i 28 → ∀ j j', InFile s i (12 + 16 * j) → InFile s i (12 + 16 * j') →
    secondMap s i j = secondMap s i j' → j = j'

/-- `m` is an fmap of the file. -/
def UsesMap (s : Kfs) (i m : Nat) : Prop :=
  InFile s i 12 ∧ m = (s.inode i).fmap ∨
    InFile s i 28 ∧ ∃ j, InFile s i (12 + 16 * j) ∧ m = secondMap s i j

/-- The maps of all files are well formed and apart, and each page that is listed is in use,
and listed once. -/
structure FilesOk (s : Kfs) : Prop where
  maps : ∀ i, MapsOk s i
  apart : ∀ i i' m, UsesMap s i m → UsesMap s i' m → i = i'
  used : ∀ i k p, InFile s i k → kfsPage s i k = some p → p ≠ 0 →
    p < kfsNpgDisk ∧ s.pageMap.bmp.isSet p = true
  once : ∀ i k i' k' p, InFile s i k → InFile s i' k' → kfsPage s i k = some p →
    kfsPage s i' k' = some p → p ≠ 0 → i = i' ∧ k = k'

/-! ## What an overwrite promises -/

/-- `kfs_ppage` returns the cell that `kfs_page` reads, and changes nothing. -/
def SameCell (s : Kfs) (i k : Nat) : Prop :=
  ∃ ptr, pageCell s i k = some ptr ∧ kfsPpage s i k = (some ptr, s)

/-- `kfs_write` of page `k` changes what `kfs_read` returns for this page only, and no size.
The page right behind a file of whole pages is none of its pages, though `kfs_page` reads
a cell for it. -/
structure WritesOnly (s : Kfs) (i k d : Nat) (buf : KfsBuf) : Prop where
  size : ∀ j, ((kfsWrite s d k buf).2.inode j).size = (s.inode j).size
  page : (kfsWrite s d k buf).1 = -1 ∧
      (∀ b, kfsRead (kfsWrite s d k buf).2 d k b = kfsRead s d k b) ∨
    (kfsWrite s d k buf).1 ≠ -1 ∧
      ∀ b a, a < 1024 → (kfsRead (kfsWrite s d k buf).2 d k b).2 a = buf a
  others : ∀ d' k' b, k' * 4096 ≠ (s.inode (s.dentry d').inode).size →
    ((s.dentry d').inode ≠ i ∨ k' ≠ k) →
    kfsRead (kfsWrite s d k buf).2 d' k' b = kfsRead s d' k' b

/-- Page `k` of a file can be overwritten. -/
def Overwrites (s : Kfs) (i k : Nat) : Prop :=
  SameCell s i k ∧ (FilesOk s → ∀ d buf, (s.dentry d).inode = i → WritesOnly s i k d buf)

/-- The file has two levels of fmaps, and the page is one of the first 16 of them. -/
def Mislaid (s : Kfs) (i k : Nat) : Prop := 28 * 4096 < (s.inode i).size ∧ 12 ≤ k ∧ k < 28

/-! ## The same cell -/

section
variable {s s' : Kfs} {i i' k k' d p : Nat} {ptr : PagePtr} {buf : KfsBuf}

theorem kfsPage_eq (s : Kfs) (i k : Nat) : kfsPage s i k = (pageCell s i k).map s.load := by
  unfold kfsPage pageCell
  simp only
  split
  · rfl
  split
  · rfl
  split <;> rfl

/-- The pages of a file, in the three regions of its index. -/
theorem pageCell_direct (hk : InFile s i k) (h12 : k < 12) :
    pageCell s i k = some (.inode i k) := by
  unfold InFile at hk
  unfold pageCell
  simp only
  rw [if_neg (by omega), if_pos h12]

theorem pageCell_first (hk : InFile s i k) (h12 : 12 ≤ k) (hsize : (s.inode i).size ≤ 28 * 4096) :
    pageCell s i k = some (.fmap (16 * (s.inode i).fmap + (k - 12))) := by
  unfold InFile at hk
  unfold pageCell
  simp only
  rw [if_neg (by omega), if_neg (by omega), if_pos hsize]

theorem pageCell_second (hk : InFile s i k) (h12 : 12 ≤ k) (hsize : 28 * 4096 < (s.inode i).size) :
    pageCell s i k = some (.fmap (16 * secondMap s i ((k - 12) / 16) + (k - 12) % 16)) := by
  unfold InFile at hk
  unfold pageCell
  simp only
  rw [if_neg (by omega), if_neg (by omega), if_neg (by omega)]
  rfl

theorem kfsPpage_direct (h12 : k < 12) : kfsPpage s i k = (some (.inode i k), s) := by
  unfold kfsPpage
  simp only
  rw [if_pos h12]

/-- The pages 12 to 27 are looked for at the first level, whatever the size of the file. -/
theorem kfsPpage_first (hk : InFile s i k) (h12 : 12 ≤ k) (h28 : k < 28) :
    kfsPpage s i k = (some (.fmap (16 * (s.inode i).fmap + (k - 12))), s) := by
  unfold InFile at hk
  unfold kfsPpage
  simp only
  rw [if_neg (by omega), if_neg (by omega), kfsPpage1, if_pos (by omega)]

theorem kfsPpage_second (hk : InFile s i k) (h28 : 28 ≤ k)
    (hmap : secondMap s i ((k - 12) / 16) ≠ 0) :
    kfsPpage s i k =
      (some (.fmap (16 * secondMap s i ((k - 12) / 16) + (k - 12) % 16)), s) := by
  have hload : s.load (.fmap (16 * (s.inode i).fmap + (k - 12) / 16)) =
      secondMap s i ((k - 12) / 16) := rfl
  unfold InFile at hk
  unfold kfsPpage
  simp only
  rw [if_neg (by omega), if_neg (by omega), kfsPpage1, if_neg (by omega), if_neg (by omega),
    kfsPpage2]
  simp only [hload]
  rw [if_neg hmap]

/-- The group of 16 pages is in the file with its page. -/
theorem InFile.group (hk : InFile s i k) (h12 : 12 ≤ k) :
    InFile s i (12 + 16 * ((k - 12) / 16)) := by
  have hle : 12 + 16 * ((k - 12) / 16) ≤ k := by omega
  exact Nat.lt_of_le_of_lt (Nat.mul_le_mul_right 4096 hle) hk

theorem sameCell_iff (hmaps : MapsOk s i) (hk : InFile s i k) :
    SameCell s i k ↔ ¬ Mislaid s i k := by
  unfold SameCell Mislaid
  by_cases h12 : k < 12
  · exact iff_of_true ⟨_, pageCell_direct hk h12, kfsPpage_direct h12⟩ (by omega)
  rw [Nat.not_lt] at h12
  by_cases hsize : (s.inode i).size ≤ 28 * 4096
  · have h28 : k < 28 := by
      unfold InFile at hk
      omega
    exact iff_of_true ⟨_, pageCell_first hk h12 hsize, kfsPpage_first hk h12 h28⟩ (by omega)
  rw [Nat.not_le] at hsize
  have hsecond := hmaps.second hsize
  by_cases h28 : k < 28
  · -- one looks at the second level, the other at the first
    refine iff_of_false ?_ (not_not.mpr ⟨hsize, h12, h28⟩)
    rintro ⟨ptr, hcell, hppage⟩
    rw [pageCell_second hk h12 hsize, Option.some.injEq] at hcell
    rw [kfsPpage_first hk h12 h28, Prod.mk.injEq, Option.some.injEq, ← hcell,
      PagePtr.fmap.injEq] at hppage
    obtain ⟨-, -, hne⟩ := hsecond _ (hk.group h12)
    omega
  · obtain ⟨hne, -, -⟩ := hsecond _ (hk.group h12)
    exact iff_of_true ⟨_, pageCell_second hk h12 hsize, kfsPpage_second hk (by omega) hne⟩
      (by omega)

/-! ## The write -/

/-- `kfs_alloc_page` changes no page number and no page, and finds a page that is not in use. -/
theorem kfsAllocPage_spec (s : Kfs) :
    ((kfsAllocPage s).1 = 0 ∨ (kfsAllocPage s).1 < kfsNpgDisk ∧
        s.pageMap.bmp.isSet (kfsAllocPage s).1 = false) ∧
      (∀ ptr, (kfsAllocPage s).2.load ptr = s.load ptr) ∧ (kfsAllocPage s).2.disk = s.disk := by
  unfold kfsAllocPage kfsAllocBitmap
  cases hfirst : s.pageMap.bmp.firstClear (kfsNpgDisk - s.pageMap.cur) s.pageMap.cur with
  | none => exact ⟨.inl rfl, fun ptr => by cases ptr <;> rfl, rfl⟩
  | some page =>
    obtain ⟨hle, hlt, hclear, -⟩ := Bitmap.firstClear_eq_some hfirst
    have hu16 : u16 page = page := u16_of_lt (by omega)
    refine ⟨.inr ?_, fun ptr => by cases ptr <;> rfl, rfl⟩
    simp only [hu16]
    exact ⟨by omega, hclear⟩

/-- The buffer is on a page, and the page in a cell. -/
structure Wrote (s : Kfs) (ptr : PagePtr) (page : Nat) (buf : KfsBuf) (s' : Kfs) : Prop where
  load : ∀ ptr', ptr' ≠ ptr → s'.load ptr' = s.load ptr'
  disk : ∀ p, p ≠ page → s'.disk p = s.disk p
  words : ∀ a, a < 1024 → wordsAt s' (s'.load ptr) a = buf a

theorem kfsWriteAt_wrote (s : Kfs) (ptr : PagePtr) (buf : KfsBuf) (hnz : s.load ptr ≠ 0)
    (hlt : s.load ptr < kfsNpgDisk) :
    (kfsWriteAt s ptr buf).1 ≠ -1 ∧ Wrote s ptr (s.load ptr) buf (kfsWriteAt s ptr buf).2 := by
  rcases kfsWriteAt_cases buf hnz hlt with ⟨hall, hres⟩ | hres
  · rw [hres]
    refine ⟨by simp, fun ptr' hne => ?_, fun p hp => ?_, fun a ha => ?_⟩
    · rw [load_store_ne hne, kfsFreePage_load, setPage_load]
    · rw [store_disk]
      exact setPage_disk_ne hp
    · rw [load_store_self, hall a ha]
      rfl
  · rw [hres]
    refine ⟨by simp, fun ptr' _ => setPage_load .., fun p hp => setPage_disk_ne hp,
      fun a ha => ?_⟩
    rw [setPage_load, wordsAt, if_neg hnz, setPage_disk ha]

/-- `kfs_write` behind `kfs_ppage`: it finds no page, or the buffer is on the page of the cell
or on one that was not in use. -/
theorem kfsWriteAt_spec (buf : KfsBuf) (hlt : s.load ptr < kfsNpgDisk) :
    ((kfsWriteAt s ptr buf).1 = -1 ∧ (∀ ptr', (kfsWriteAt s ptr buf).2.load ptr' = s.load ptr') ∧
        (kfsWriteAt s ptr buf).2.disk = s.disk) ∨
      ∃ page, page ≠ 0 ∧ (page = s.load ptr ∨ s.pageMap.bmp.isSet page = false) ∧
        (kfsWriteAt s ptr buf).1 ≠ -1 ∧ Wrote s ptr page buf (kfsWriteAt s ptr buf).2 := by
  by_cases hzero : s.load ptr = 0
  · obtain ⟨hpage, hload, hdisk⟩ := kfsAllocPage_spec s
    generalize halloc : kfsAllocPage s = r at hpage hload hdisk
    obtain ⟨page, s₁⟩ := r
    simp only at hpage hload hdisk
    have hpageLt : page < kfsNpgDisk := by
      rcases hpage with rfl | ⟨hpage, -⟩
      · decide
      · exact hpage
    have hstored : (s₁.store ptr page).load ptr = page := by rw [load_store_self, u16_of_lt hpageLt]
    by_cases hpage0 : page = 0
    · -- no page is free
      have hres : kfsWriteAt s ptr buf = (-1, s₁.store ptr page) := by
        rw [kfsWriteAt]
        simp only [if_pos hzero, halloc, hstored]
        rw [if_pos hpage0]
      rw [hres]
      refine .inl ⟨rfl, fun ptr' => ?_, by rw [store_disk, hdisk]⟩
      by_cases hp : ptr' = ptr
      · rw [hp, hstored, hpage0, hzero]
      · rw [load_store_ne hp, hload]
    · have hsame : kfsWriteAt s ptr buf = kfsWriteAt (s₁.store ptr page) ptr buf := by
        rw [kfsWriteAt, kfsWriteAt]
        simp only [if_pos hzero, halloc, hstored, if_neg hpage0]
      have hwrite := kfsWriteAt_wrote (s₁.store ptr page) ptr buf
      rw [hstored] at hwrite
      obtain ⟨hres, hwrote⟩ := hwrite hpage0 hpageLt
      rw [hsame]
      refine .inr ⟨page, hpage0, .inr (hpage.resolve_left hpage0).2, hres, fun ptr' hp => ?_,
        fun p hp => ?_, hwrote.words⟩
      · rw [hwrote.load ptr' hp, load_store_ne hp, hload]
      · rw [hwrote.disk p hp, store_disk, hdisk]
  · exact .inr ⟨_, hzero, .inl rfl, kfsWriteAt_wrote s ptr buf hzero hlt⟩

/-! ## Each page has its own cell -/

/-- The entry of the table of fmaps that a cell is, with its fmap. -/
theorem pageCell_fmap (hmaps : MapsOk s i) (hk : InFile s i k) (h12 : 12 ≤ k) :
    ∃ m o, pageCell s i k = some (.fmap (16 * m + o)) ∧ o < 16 ∧ UsesMap s i m ∧
      ((s.inode i).size ≤ 28 * 4096 ∧ m = (s.inode i).fmap ∧ k = 12 + o ∨
        InFile s i 28 ∧ m = secondMap s i ((k - 12) / 16) ∧ m ≠ (s.inode i).fmap ∧
          o = (k - 12) % 16) := by
  have h12' : InFile s i 12 := Nat.lt_of_le_of_lt (Nat.mul_le_mul_right 4096 h12) hk
  by_cases hsize : (s.inode i).size ≤ 28 * 4096
  · have h28 : k < 28 := by
      unfold InFile at hk
      omega
    exact ⟨_, _, pageCell_first hk h12 hsize, by omega, .inl ⟨h12', rfl⟩,
      .inl ⟨hsize, rfl, by omega⟩⟩
  · have h28 : InFile s i 28 := Nat.not_le.mp hsize
    obtain ⟨-, -, hne⟩ := hmaps.second h28 _ (hk.group h12)
    exact ⟨_, _, pageCell_second hk h12 h28, by omega, .inr ⟨h28, _, hk.group h12, rfl⟩,
      .inr ⟨h28, rfl, hne, rfl⟩⟩

/-- Two pages with one cell are one page. -/
theorem FilesOk.cell_injective (h : FilesOk s) (hk : InFile s i k) (hk' : InFile s i' k')
    (hcell : pageCell s i k = pageCell s i' k') : i = i' ∧ k = k' := by
  by_cases h12 : k < 12
  · rw [pageCell_direct hk h12] at hcell
    by_cases h12' : k' < 12
    · rw [pageCell_direct hk' h12', Option.some.injEq, PagePtr.inode.injEq] at hcell
      exact hcell
    · obtain ⟨m, o, hcell', -⟩ := pageCell_fmap (h.maps i') hk' (by omega)
      rw [hcell'] at hcell
      exact absurd hcell (by simp)
  · obtain ⟨m, o, hcell₁, ho, huses, hm⟩ := pageCell_fmap (h.maps i) hk (by omega)
    rw [hcell₁] at hcell
    by_cases h12' : k' < 12
    · rw [pageCell_direct hk' h12'] at hcell
      exact absurd hcell (by simp)
    · obtain ⟨m', o', hcell₂, ho', huses', hm'⟩ := pageCell_fmap (h.maps i') hk' (by omega)
      rw [hcell₂, Option.some.injEq, PagePtr.fmap.injEq] at hcell
      obtain ⟨rfl, rfl⟩ : m = m' ∧ o = o' := by omega
      obtain rfl := h.apart i i' m huses huses'
      refine ⟨rfl, ?_⟩
      rcases hm with ⟨hsize, -, hko⟩ | ⟨h28, hsecond, -, hko⟩
      · rcases hm' with ⟨-, -, hko'⟩ | ⟨h28, -, -, -⟩
        · omega
        · exact absurd h28 (Nat.not_lt.mpr hsize)
      · rcases hm' with ⟨hsize, -, -⟩ | ⟨-, hsecond', -, hko'⟩
        · exact absurd h28 (Nat.not_lt.mpr hsize)
        · have hgroup := (h.maps i).once h28 _ _ (hk.group (by omega)) (hk'.group (by omega))
            (hsecond.symm.trans hsecond')
          omega

/-- The cell of a page is no entry of the first level of a file with two levels. -/
theorem FilesOk.cell_ne_entry (h : FilesOk s) (hk : InFile s i k)
    (hcell : pageCell s i k = some ptr) (hk' : InFile s i' k') (h12' : 12 ≤ k')
    (h28' : InFile s i' 28) : ptr ≠ .fmap (16 * (s.inode i').fmap + (k' - 12) / 16) := by
  rintro rfl
  by_cases h12 : k < 12
  · rw [pageCell_direct hk h12] at hcell
    exact absurd hcell (by simp)
  · obtain ⟨m, o, hcell', ho, huses, hm⟩ := pageCell_fmap (h.maps i) hk (by omega)
    rw [hcell', Option.some.injEq, PagePtr.fmap.injEq] at hcell
    have hentry : (k' - 12) / 16 < 16 := by
      have hsize := (h.maps i').size_le
      unfold InFile at hk'
      omega
    have hmap : m = (s.inode i').fmap := by omega
    have huses' : UsesMap s i' m :=
      .inl ⟨Nat.lt_of_le_of_lt (Nat.mul_le_mul_right 4096 h12') hk', hmap⟩
    obtain rfl := h.apart i i' m huses huses'
    rcases hm with ⟨hsize, -, -⟩ | ⟨-, -, hne, -⟩
    · exact absurd h28' (Nat.not_lt.mpr hsize)
    · exact hne hmap

/-! ## What a read depends on -/

theorem pageCell_congr (hsize : (s'.inode i).size = (s.inode i).size)
    (hfmap : (s'.inode i).fmap = (s.inode i).fmap)
    (hentry : InFile s i 28 → 12 ≤ k → s'.fmaps (16 * (s.inode i).fmap + (k - 12) / 16) =
      s.fmaps (16 * (s.inode i).fmap + (k - 12) / 16)) :
    pageCell s' i k = pageCell s i k := by
  unfold pageCell
  simp only [hsize, hfmap]
  split
  · rfl
  split
  · rfl
  split
  · rfl
  · rename_i h12 h28
    rw [hentry (Nat.not_le.mp h28) (Nat.not_lt.mp h12)]

/-- A page behind the file, the one right behind it apart. -/
theorem pageCell_behind (hk : (s.inode i).size < k * 4096) : pageCell s i k = none := by
  unfold pageCell
  simp only
  rw [if_pos (by omega)]

theorem kfsRead_congr (hdentry : s'.dentry = s.dentry)
    (hcell : pageCell s' (s.dentry d).inode k = pageCell s (s.dentry d).inode k)
    (hpage : ∀ ptr, pageCell s (s.dentry d).inode k = some ptr → s'.load ptr = s.load ptr ∧
      (s.load ptr ≠ 0 → s'.disk (s.load ptr) = s.disk (s.load ptr))) (b : KfsBuf) :
    kfsRead s' d k b = kfsRead s d k b := by
  unfold kfsRead
  rw [hdentry, kfsPage_eq, kfsPage_eq, hcell]
  cases hc : pageCell s (s.dentry d).inode k with
  | none => rfl
  | some ptr =>
    obtain ⟨hload, hdisk⟩ := hpage ptr hc
    simp only [Option.map_some, hload, kfsReadPage]
    split
    · rfl
    · rename_i hnz
      rw [hdisk hnz]

/-! ## The overwrite -/

theorem FilesOk.writesOnly (h : FilesOk s) (hk : InFile s i k) (hsame : SameCell s i k) (d : Nat)
    (hd : (s.dentry d).inode = i) (buf : KfsBuf) : WritesOnly s i k d buf := by
  obtain ⟨ptr, hcell, hppage⟩ := hsame
  have hpage : kfsPage s i k = some (s.load ptr) := by rw [kfsPage_eq, hcell, Option.map_some]
  have hlt : s.load ptr < kfsNpgDisk := by
    by_cases h0 : s.load ptr = 0
    · rw [h0]
      decide
    · exact (h.used i k _ hk hpage h0).1
  have hu16 : u16 k = k := by
    have hsize := (h.maps i).size_le
    unfold InFile at hk
    exact Nat.mod_eq_of_lt (by omega)
  have hwrite : kfsWrite s d k buf = kfsWriteAt s ptr buf := by
    rw [kfsWrite, hu16, hd, hppage]
  obtain ⟨hnames, hsizes⟩ := kfsWriteAt_names i s ptr buf
  have hspec := kfsWriteAt_spec buf hlt
  generalize hr : kfsWriteAt s ptr buf = r at hwrite hnames hsizes hspec
  obtain ⟨res, s'⟩ := r
  simp only at hnames hsizes hspec
  -- the other cells of the tables, and with them the cells of all pages, stay
  have hload : ∀ q, q ≠ ptr → s'.load q = s.load q := by
    rcases hspec with ⟨-, hload, -⟩ | ⟨page, -, -, -, hwrote⟩
    · exact fun q _ => hload q
    · exact hwrote.load
  have hcells : ∀ i' k', k' * 4096 ≠ (s.inode i').size → pageCell s' i' k' = pageCell s i' k' := by
    intro i' k' hne
    rcases Nat.lt_or_gt_of_ne hne with hk' | hk'
    · refine pageCell_congr (hsizes i') (hnames.fmap i') fun h28 h12 => ?_
      exact hload (.fmap _) (h.cell_ne_entry hk hcell hk' h12 h28).symm
    · rw [pageCell_behind hk', pageCell_behind (by rw [hsizes]; exact hk')]
  have hkne : k * 4096 ≠ (s.inode i).size := Nat.ne_of_lt hk
  refine ⟨fun j => by rw [hwrite]; exact hsizes j, ?_, fun d' k' b hne hother => ?_⟩
  · rw [hwrite]
    rcases hspec with ⟨hres, hall, hdisk⟩ | ⟨page, -, -, hres, hwrote⟩
    · refine .inl ⟨hres, fun b => kfsRead_congr hnames.dentry ?_ (fun q _ => ?_) b⟩
      · rw [hd]
        exact hcells i k hkne
      · exact ⟨hall q, fun _ => by rw [hdisk]⟩
    · refine .inr ⟨hres, fun b a ha => ?_⟩
      have hpage' : kfsPage s' (s'.dentry d).inode k = some (s'.load ptr) := by
        rw [kfsPage_eq, hnames.dentry, hd, hcells i k hkne, hcell, Option.map_some]
      rw [kfsRead_words hpage' ha]
      exact hwrote.words a ha
  · rw [hwrite]
    refine kfsRead_congr hnames.dentry (hcells _ k' hne) (fun q hq => ?_) b
    rcases Nat.lt_or_gt_of_ne hne with hk' | hk'
    · have hqp : q ≠ ptr := by
        rintro rfl
        obtain ⟨hi, hkk⟩ := h.cell_injective hk hk' (hcell.trans hq.symm)
        exact hother.elim (fun hne => hne hi.symm) fun hne => hne hkk.symm
      have hpage' : kfsPage s (s.dentry d').inode k' = some (s.load q) := by
        rw [kfsPage_eq, hq, Option.map_some]
      refine ⟨hload q hqp, fun hq0 => ?_⟩
      rcases hspec with ⟨-, -, hdisk⟩ | ⟨page, hpage0, hfresh, -, hwrote⟩
      · rw [hdisk]
      · refine hwrote.disk _ ?_
        rintro rfl
        rcases hfresh with heq | hclear
        · obtain ⟨hi, hkk⟩ := h.once i k _ k' _ hk hk' hpage (heq ▸ hpage') (heq ▸ hq0)
          exact hother.elim (fun hne => hne hi.symm) fun hne => hne hkk.symm
        · obtain ⟨-, hset⟩ := h.used _ k' _ hk' hpage' hq0
          rw [hclear] at hset
          exact absurd hset (by decide)
    · rw [pageCell_behind hk'] at hq
      exact absurd hq (by simp)

/-- In a file with well-formed maps, page `k` can be overwritten exactly when `kfs_ppage` looks
for it at the level where `kfs_page` does. -/
theorem overwrites_iff (hmaps : MapsOk s i) (hk : InFile s i k) :
    Overwrites s i k ↔ ¬ Mislaid s i k := by
  have hsame := sameCell_iff hmaps hk
  constructor
  · exact fun h => hsame.mp h.1
  · exact fun h => ⟨hsame.mpr h, fun hfiles d buf hd => hfiles.writesOnly hk (hsame.mpr h) d hd buf⟩

/-! ## Sizes -/

/-- The dentries and the sizes of the files are the same. -/
structure SameSizes (s s' : Kfs) : Prop where
  dentry : s'.dentry = s.dentry
  size : ∀ j, (s'.inode j).size = (s.inode j).size

theorem SameSizes.refl (s : Kfs) : SameSizes s s := ⟨rfl, fun _ => rfl⟩

theorem SameSizes.trans {s₁ s₂ s₃ : Kfs} (h : SameSizes s₁ s₂) (h' : SameSizes s₂ s₃) :
    SameSizes s₁ s₃ :=
  ⟨h'.dentry.trans h.dentry, fun j => (h'.size j).trans (h.size j)⟩

theorem sameSizes_store (s : Kfs) (ptr : PagePtr) (v : Nat) : SameSizes s (s.store ptr v) :=
  ⟨(sameNames_store (i := 0) s ptr v).dentry, store_size s ptr v⟩

theorem sameSizes_setFmap (s : Kfs) (i fmap : Nat) :
    SameSizes s (s.setInode i fun e => { e with fmap := u16 fmap }) :=
  ⟨rfl, fun _ => Kfs.setInode_field KfsInode.size fun _ => rfl⟩

theorem sameSizes_newFmap {rest : Nat → Kfs → Option PagePtr × Kfs}
    (hrest : ∀ fmap t, SameSizes t (rest fmap t).2) : SameSizes s (kfsNewFmap s rest).2 := by
  have halloc : SameSizes s (kfsAllocFmap s).2 := ⟨rfl, fun _ => rfl⟩
  unfold kfsNewFmap
  simp only
  split
  · exact halloc
  · exact halloc.trans (hrest _ _)

theorem sameSizes_ppage2 (s : Kfs) (i k : Nat) : SameSizes s (kfsPpage2 s i k).2 := by
  unfold kfsPpage2
  simp only
  split
  · exact sameSizes_newFmap fun fmap t =>
      sameSizes_store t (.fmap (16 * (s.inode i).fmap + k / 16)) fmap
  · exact .refl s

theorem sameSizes_ppage1 (s : Kfs) (i k old : Nat) : SameSizes s (kfsPpage1 s i k old).2 := by
  unfold kfsPpage1
  split
  · exact .refl s
  split
  · refine sameSizes_newFmap fun fmap t => ?_
    exact ((sameSizes_store t (.fmap (16 * fmap)) _).trans (sameSizes_setFmap _ i fmap)).trans
      (sameSizes_ppage2 _ i k)
  · exact sameSizes_ppage2 s i k

theorem sameSizes_ppage (s : Kfs) (i k : Nat) : SameSizes s (kfsPpage s i k).2 := by
  unfold kfsPpage
  simp only
  split
  · exact .refl s
  split
  · exact sameSizes_newFmap fun fmap t =>
      (sameSizes_setFmap t i fmap).trans (sameSizes_ppage1 _ i _ _)
  · exact sameSizes_ppage1 s i _ _

/-- `kfs_write` changes no size. -/
theorem sameSizes_write (s : Kfs) (d k : Nat) (buf : KfsBuf) :
    SameSizes s (kfsWrite s d k buf).2 := by
  have hppage := sameSizes_ppage s (s.dentry d).inode (u16 k)
  rw [kfsWrite]
  generalize kfsPpage s (s.dentry d).inode (u16 k) = r at hppage
  obtain ⟨_ | ptr, t⟩ := r
  · exact hppage
  · obtain ⟨hnames, hsize⟩ := kfsWriteAt_names 0 t ptr buf
    exact hppage.trans ⟨hnames.dentry, hsize⟩

/-! ## The file of `dummy_disk` -/

/-- A page with one word. -/
def mess (v : BitVec 32) : KfsBuf := fun a => if a = 0 then v else 0

/-- A page is written, and is the last one. -/
def dummyWrite (s : Kfs) (k : Nat) : Kfs :=
  kfsSetSize (kfsWrite s 1 k (mess 1)).2 1 (4096 * k + 8)

/-- The first writes of `dummy_disk`, to the file `/f`. -/
def dummyDisk : Kfs :=
  [0, 3, 13, 27, 28].foldl dummyWrite ((kfsDo kfsStart (.openat 0 nameF)).getD kfsStart)

theorem dummyWrite_size (h1 : (s.dentry 1).inode = 1) (hi : i ≠ 1) :
    ((dummyWrite s k).inode i).size = (s.inode i).size ∧ ((dummyWrite s k).dentry 1).inode = 1 := by
  have hwrite := sameSizes_write s 1 k (mess 1)
  unfold dummyWrite kfsSetSize
  rw [hwrite.dentry, h1, Kfs.setInode_inode_ne hi, hwrite.size, Kfs.setInode_dentry, hwrite.dentry]
  exact ⟨rfl, h1⟩

/-- The other inodes have no file. -/
theorem dummyDisk_size (hi : i ≠ 1) : (dummyDisk.inode i).size = 0 := by
  have hwrites : ∀ (ks : List Nat) (s : Kfs), (s.dentry 1).inode = 1 →
      ((ks.foldl dummyWrite s).inode i).size = (s.inode i).size := by
    intro ks
    induction ks with
    | nil => exact fun s _ => rfl
    | cons k ks ih =>
      intro s h1
      obtain ⟨hsize, h1'⟩ := dummyWrite_size (k := k) h1 hi
      rw [List.foldl_cons, ih _ h1', hsize]
  have hopen : ∃ s, kfsDo kfsStart (.openat 0 nameF) = some s ∧ (s.dentry 1).inode = 1 := by
    have heval : (kfsDo kfsStart (.openat 0 nameF)).map (fun s => (s.dentry 1).inode) = some 1 := by
      decide +kernel
    exact Option.map_eq_some_iff.mp heval
  obtain ⟨s, heq, h1⟩ := hopen
  have hc : KfsRequest.IsOpen (.openat 0 nameF) := trivial
  rw [dummyDisk, heq, Option.getD_some, hwrites _ s h1, (kfsDo_files hc heq).size]
  rfl

theorem dummyDisk_values : (dummyDisk.inode 1).size = 28 * 4096 + 8 ∧
    (dummyDisk.inode 1).fmap = 2 ∧ secondMap dummyDisk 1 0 = 1 ∧ secondMap dummyDisk 1 1 = 3 := by
  decide +kernel

/-- The pages of the file. -/
def dummyPage (k : Nat) : Nat :=
  if k = 0 then 26 else if k = 3 then 27 else if k = 13 then 28 else if k = 27 then 29
  else if k = 28 then 30 else 0

/-- No page of the disk is listed twice. -/
theorem dummyPage_once (heq : dummyPage k = dummyPage k') (h0 : dummyPage k ≠ 0) : k = k' := by
  unfold dummyPage at heq h0
  grind

theorem dummyDisk_page (hk : k < 29) : kfsPage dummyDisk 1 k = some (dummyPage k) := by
  have hall : (List.range 29).all (fun k => kfsPage dummyDisk 1 k = some (dummyPage k)) = true := by
    decide +kernel
  exact of_decide_eq_true (List.all_eq_true.mp hall k (List.mem_range.mpr hk))

theorem mapsOk_dummyDisk : MapsOk dummyDisk 1 := by
  obtain ⟨hsize, hfmap, hfirst, hsecond⟩ := dummyDisk_values
  have hgroup : ∀ j, InFile dummyDisk 1 (12 + 16 * j) → j = 0 ∨ j = 1 := by
    intro j hj
    unfold InFile at hj
    rw [hsize] at hj
    omega
  refine ⟨by rw [hsize]; decide, fun _ => by rw [hfmap]; decide, fun _ j hj => ?_,
    fun _ j j' hj hj' heq => ?_⟩
  · rcases hgroup j hj with rfl | rfl
    · rw [hfirst, hfmap]
      decide
    · rw [hsecond, hfmap]
      decide
  · rcases hgroup j hj with rfl | rfl <;> rcases hgroup j' hj' with rfl | rfl
    · rfl
    · rw [hfirst, hsecond] at heq
      exact absurd heq (by decide)
    · rw [hfirst, hsecond] at heq
      exact absurd heq (by decide)
    · rfl

theorem filesOk_dummyDisk : FilesOk dummyDisk := by
  obtain ⟨hsize, -⟩ := dummyDisk_values
  have hone : ∀ i k, InFile dummyDisk i k → i = 1 ∧ k < 29 := by
    intro i k hk
    unfold InFile at hk
    by_cases hi : i = 1
    · rw [hi, hsize] at hk
      exact ⟨hi, by omega⟩
    · rw [dummyDisk_size hi] at hk
      omega
  have huses : ∀ i m, UsesMap dummyDisk i m → i = 1 := by
    rintro i m (⟨hin, -⟩ | ⟨hin, -⟩)
    · exact (hone i 12 hin).1
    · exact (hone i 28 hin).1
  refine ⟨fun i => ?_, fun i i' m hu hu' => ?_, fun i k p hk hp hp0 => ?_,
    fun i k i' k' p hk hk' hp hp' hp0 => ?_⟩
  · by_cases hi : i = 1
    · rw [hi]
      exact mapsOk_dummyDisk
    · have hnone : ∀ k, ¬ InFile dummyDisk i k := fun k hk => hi (hone i k hk).1
      exact ⟨by rw [dummyDisk_size hi]; decide, fun h => absurd h (hnone 12),
        fun h => absurd h (hnone 28), fun h => absurd h (hnone 28)⟩
  · rw [huses i m hu, huses i' m hu']
  · obtain ⟨rfl, hlt⟩ := hone i k hk
    rw [dummyDisk_page hlt, Option.some.injEq] at hp
    have hall : (List.range 29).all (fun k => dummyPage k = 0 ∨ dummyPage k < kfsNpgDisk ∧
        dummyDisk.pageMap.bmp.isSet (dummyPage k) = true) = true := by
      decide +kernel
    have hk' := of_decide_eq_true (List.all_eq_true.mp hall k (List.mem_range.mpr hlt))
    rw [hp] at hk'
    exact hk'.resolve_left hp0
  · obtain ⟨rfl, hlt⟩ := hone i k hk
    obtain ⟨rfl, hlt'⟩ := hone i' k' hk'
    rw [dummyDisk_page hlt, Option.some.injEq] at hp
    rw [dummyDisk_page hlt', Option.some.injEq] at hp'
    exact ⟨rfl, dummyPage_once (hp.trans hp'.symm) (hp ▸ hp0)⟩

/-- Page 28 of the file can be overwritten. -/
theorem overwrites_iff_dummyDisk : FilesOk dummyDisk ∧ Overwrites dummyDisk 1 28 := by
  refine ⟨filesOk_dummyDisk, (overwrites_iff mapsOk_dummyDisk ?_).mpr ?_⟩
  · unfold InFile
    rw [dummyDisk_values.1]
    decide
  · exact fun h => absurd h.2.2 (by decide)

/-- Page 13 is listed in fmap 1, but `kfs_ppage` returns the entry of fmap 2 that has the
number of fmap 3: `kfs_write` puts the buffer on page 3 of the disk. -/
theorem dummyDisk_mislaid : FilesOk dummyDisk ∧ InFile dummyDisk 1 13 ∧
    pageCell dummyDisk 1 13 = some (.fmap 17) ∧ (kfsPpage dummyDisk 1 13).1 = some (.fmap 33) ∧
    (kfsWrite dummyDisk 1 13 (mess 2)).1 = 1 ∧
    (kfsWrite dummyDisk 1 13 (mess 2)).2.disk 3 0 = 2 ∧
    (kfsRead (kfsWrite dummyDisk 1 13 (mess 2)).2 1 13 (mess 0)).2 0 = 1 ∧
    ¬ Overwrites dummyDisk 1 13 := by
  have hcell : pageCell dummyDisk 1 13 = some (.fmap 17) := by decide +kernel
  have hppage : (kfsPpage dummyDisk 1 13).1 = some (.fmap 33) := by decide +kernel
  have hwrite : (kfsWrite dummyDisk 1 13 (mess 2)).1 = 1 ∧
      (kfsWrite dummyDisk 1 13 (mess 2)).2.disk 3 0 = 2 ∧
      (kfsRead (kfsWrite dummyDisk 1 13 (mess 2)).2 1 13 (mess 0)).2 0 = 1 := by
    decide +kernel
  refine ⟨filesOk_dummyDisk, ?_, hcell, hppage, hwrite.1, hwrite.2.1, hwrite.2.2, ?_⟩
  · unfold InFile
    rw [dummyDisk_values.1]
    decide
  · rintro ⟨⟨ptr, hptr, heq⟩, -⟩
    rw [hcell, Option.some.injEq] at hptr
    rw [heq, ← hptr] at hppage
    exact absurd hppage (by decide)

end

end Ko6.Fs
