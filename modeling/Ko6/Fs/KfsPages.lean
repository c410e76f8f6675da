import Ko6.Fs.KfsTree

set_option autoImplicit false

/-!
# Fs: the pages of the files of KFS

The first twelve pages of a file are listed in its inode, the others in fmaps.
`kfs_ppage` makes the first fmap of a file when a page beyond the twelfth is written
and the file has less than twelve full pages; a file that grows page by page has
twelve by then, and lists its pages in fmap 0, as every other file does.
`storeRun_faithful_iff` says which files are read back all the same.
-/

namespace Ko6.Fs

open Ko6.Lib Ko6.Common

/-! ## Model -/

/-- A `u16_t *` that `kfs_ppage` gives: a page number in an inode, or an entry of the
table of fmaps. -/
inductive PagePtr where
  | inode (inode p : Nat)
  | fmap (i : Nat)
  deriving DecidableEq

/-- The page number at a pointer. -/
def Kfs.load (s : Kfs) : PagePtr → Nat
  | .inode i p => (s.inode i).page p
  | .fmap i => s.fmaps i

/-- The tables with a page number at a pointer. -/
def Kfs.store (s : Kfs) (ptr : PagePtr) (v : Nat) : Kfs :=
  match ptr with
  | .inode i p => s.setInode i fun e => { e with page := Function.update e.page p (u16 v) }
  | .fmap i => { s with fmaps := Function.update s.fmaps i (u16 v) }

/-- `kfs_alloc_fmap`. -/
def kfsAllocFmap (s : Kfs) : Nat × Kfs :=
  let (new, t) := kfsAllocBitmap s.fmapMap kfsMaxFmap
  (new, { s with fmapMap := t })

/-- `kfs_alloc_page`. -/
def kfsAllocPage (s : Kfs) : Nat × Kfs :=
  let (new, t) := kfsAllocBitmap s.pageMap kfsNpgDisk
  (u16 new, { s with pageMap := t })

/-- `kfs_page`; `none` is -1.  The table of fmaps is not checked for its end. -/
def kfsPage (s : Kfs) (inode pgOffset : Nat) : Option Nat :=
  let size := (s.inode inode).size
  if size = 0 ∨ pgOffset > size / 4096 then none
  else if pgOffset < 12 then some ((s.inode inode).page pgOffset)
  else
    let pgOffset := pgOffset - 12
    let map1 := (s.inode inode).fmap
    if size ≤ 28 * 4096 then some (s.fmaps (16 * map1 + pgOffset))
    else
      let map2 := s.fmaps (16 * map1 + pgOffset / 16)
      some (s.fmaps (16 * map2 + pgOffset % 16))

/-- A new fmap for the rest of `kfs_ppage`; NULL when there is none. -/
def kfsNewFmap (s : Kfs) (rest : Nat → Kfs → Option PagePtr × Kfs) : Option PagePtr × Kfs :=
  let (fmap, s) := kfsAllocFmap s
  if fmap = 0 then (none, s) else rest fmap s

/-- `kfs_ppage` at the second level. -/
def kfsPpage2 (s : Kfs) (inode pgOffset : Nat) : Option PagePtr × Kfs :=
  let pfmap2in1 := PagePtr.fmap (16 * (s.inode inode).fmap + pgOffset / 16)
  if s.load pfmap2in1 = 0 then
    kfsNewFmap s fun fmap s =>
      let s := s.store pfmap2in1 fmap
      (some (.fmap (16 * s.load pfmap2in1 + pgOffset % 16)), s)
  else (some (.fmap (16 * s.load pfmap2in1 + pgOffset % 16)), s)

/-- `kfs_ppage` at the first level. -/
def kfsPpage1 (s : Kfs) (inode pgOffset oldPgSize : Nat) : Option PagePtr × Kfs :=
  if pgOffset < 16 then (some (.fmap (16 * (s.inode inode).fmap + pgOffset)), s)
  else if oldPgSize < 28 then
    kfsNewFmap s fun fmap s =>
      let s := s.store (.fmap (16 * fmap)) (s.inode inode).fmap
      kfsPpage2 (s.setInode inode fun e => { e with fmap := u16 fmap }) inode pgOffset
  else kfsPpage2 s inode pgOffset

/-- `kfs_ppage`; `none` is NULL. -/
def kfsPpage (s : Kfs) (inode pgOffset : Nat) : Option PagePtr × Kfs :=
  let oldPgSize := (s.inode inode).size / 4096
  if pgOffset < 12 then (some (.inode inode pgOffset), s)
  else if oldPgSize < 12 then
    kfsNewFmap s fun fmap s =>
      kfsPpage1 (s.setInode inode fun e => { e with fmap := u16 fmap }) inode (pgOffset - 12)
        oldPgSize
  else kfsPpage1 s inode (pgOffset - 12) oldPgSize

/-- The words of a buffer or of a page. -/
abbrev KfsBuf : Type := Nat → BitVec 32

/-- `kfs_read_page`. -/
def kfsReadPage (s : Kfs) (buf : KfsBuf) (page : Nat) : Int × KfsBuf :=
  if page = 0 then (0, fun a => if a < 1024 then 0 else buf a)
  else (1, fun a => if a < 1024 then s.disk page a else buf a)

/-- `kfs_write_page`. -/
def kfsWritePage (s : Kfs) (buf : KfsBuf) (page : Nat) : Int × Kfs :=
  if page = 0 ∨ page ≥ kfsNpgDisk then (-1, s)
  else
    let res := (List.range 1024).foldl (fun res a => res ||| buf a) 0
    let words := fun a => if a < 1024 then buf a else s.disk page a
    (if res ≠ 0 then 1 else 0, { s with disk := Function.update s.disk page words })

/-- `kfs_read`. -/
def kfsRead (s : Kfs) (dentry pgOffset : Nat) (buf : KfsBuf) : Int × KfsBuf :=
  match kfsPage s (s.dentry dentry).inode pgOffset with
  | none => (0, buf)
  | some page => kfsReadPage s buf page

/-- `kfs_set_size`; the field has 24 bits. -/
def kfsSetSize (s : Kfs) (dentry newsize : Nat) : Kfs :=
  s.setInode (s.dentry dentry).inode fun e => { e with size := newsize % 2 ^ 24 }

/-- `kfs_write` to the page at a pointer. -/
def kfsWriteAt (s : Kfs) (ppage : PagePtr) (buf : KfsBuf) : Int × Kfs :=
  let s :=
    if s.load ppage = 0 then
      let (page, s) := kfsAllocPage s
      s.store ppage page
    else s
  if s.load ppage = 0 then (-1, s)
  else
    let (res, s) := kfsWritePage s buf (s.load ppage)
    if res ≠ 0 then (1, s) else (0, (kfsFreePage s (s.load ppage)).store ppage 0)

/-- `kfs_write`. -/
def kfsWrite (s : Kfs) (dentry pgOffset : Nat) (buf : KfsBuf) : Int × Kfs :=
  match kfsPpage s (s.dentry dentry).inode (u16 pgOffset) with
  | (none, s) => (-1, s)
  | (some ppage, s) => kfsWriteAt s ppage buf

/-- The buffer of `add_new_file` with what was read to its beginning. -/
def pageBuffer (bytes : List (BitVec 8)) : KfsBuf := fun a =>
  Mem.readWord (fun i => bytes.getD i 0) (4 * a)

/-- The loop of `add_new_file` over the rest of the host file; each turn reads something. -/
def addNewFileLoop (kfsDentry : Nat) : Nat → List (BitVec 8) → Nat → Kfs → Kfs
  | 0, _, _, s => s
  | fuel + 1, rest, pageOffset, s =>
    let buffer := rest.take 4096
    if buffer = [] then s
    else
      let s := (kfsWrite s kfsDentry pageOffset (pageBuffer buffer)).2
      let s := kfsSetSize s kfsDentry (buffer.length + pageOffset * 4096)
      addNewFileLoop kfsDentry fuel (rest.drop 4096) (pageOffset + 1) s

/-- `add_new_file`. -/
def addNewFile (s : Kfs) (hostFile : List (BitVec 8)) (kfsDentry : Nat) : Kfs :=
  addNewFileLoop kfsDentry hostFile.length hostFile 0 s

/-! ## Runs -/

/-- The pages of a file. -/
def pagesOf (data : List (BitVec 8)) : Nat := (data.length + 4095) / 4096

/-- The word `a` of the chunk `k` of a file, with zeros behind the file. -/
def chunk (data : List (BitVec 8)) (k a : Nat) : BitVec 32 :=
  Mem.readWord (fun i => data.getD i 0) (4096 * k + 4 * a)

/-- At least `n` pages are free. -/
def FreePages (s : Kfs) (n : Nat) : Prop :=
  ∃ l : List Nat, l.Nodup ∧ n ≤ l.length ∧ ∀ p ∈ l, p < kfsNpgDisk ∧ s.pageMap.bmp.isSet p = false

/-- A dentry and the host file that is stored in it. -/
abbrev Stored : Type := Nat × List (BitVec 8)

/-- The calls that make dentries. -/
def KfsRequest.IsOpen : KfsRequest → Prop
  | .open_ _ => True
  | .openat _ _ => True
  | .unlink _ => False

/-- Files of at most 268 pages are stored one after another in dentries that hold none
yet, while the pages suffice; dentries are made at any time. -/
inductive StoreRun : List Stored → Kfs → Prop where
  | start : StoreRun [] kfsStart
  | opened {files : List Stored} {s s' : Kfs} {c : KfsRequest} : StoreRun files s → c.IsOpen →
      Permitted s c → kfsDo s c = some s' → StoreRun files s'
  | stored {files : List Stored} {s : Kfs} {d : Nat} {data : List (BitVec 8)} : StoreRun files s →
      Allocated s d → d ∉ files.map Prod.fst → pagesOf data ≤ 268 → FreePages s (pagesOf data) →
      StoreRun (files ++ [(d, data)]) (addNewFile s data d)

/-- Every file that is stored is read back. -/
def Faithful (files : List Stored) (s : Kfs) : Prop :=
  ∀ f ∈ files, ∀ k, k < pagesOf f.2 → ∀ buf a, a < 1024 →
    (kfsRead s f.1 k buf).2 a = chunk f.2 k a

/-- No two files differ on a page from the twelfth on that both have. -/
def AgreeBehind (files : List Stored) : Prop :=
  ∀ f ∈ files, ∀ g ∈ files, ∀ k, 12 ≤ k → k < pagesOf f.2 → k < pagesOf g.2 →
    ∀ a, a < 1024 → chunk f.2 k a = chunk g.2 k a

/-! ## Page numbers -/

section
variable {s s' : Kfs} {ptr ptr' : PagePtr} {v a n : Nat} {buf : KfsBuf}

theorem load_store : (s.store ptr v).load ptr' = if ptr' = ptr then u16 v else s.load ptr' := by
  cases ptr with
  | inode i p =>
    cases ptr' with
    | inode i' p' =>
      rw [Kfs.store, Kfs.load, Kfs.load]
      by_cases hi : i' = i
      · subst hi
        by_cases hp : p' = p
        · subst hp
          rw [Kfs.setInode_inode, if_pos rfl]
          exact Function.update_self ..
        · rw [Kfs.setInode_inode, if_neg (by simp [hp])]
          exact Function.update_of_ne hp ..
      · rw [Kfs.setInode_inode_ne hi, if_neg (by simp [hi])]
    | fmap j =>
      rw [if_neg (by simp)]
      rfl
  | fmap i =>
    cases ptr' with
    | inode i' p' =>
      rw [if_neg (by simp)]
      rfl
    | fmap j =>
      rw [Kfs.store, Kfs.load, Kfs.load]
      by_cases hj : j = i
      · subst hj
        rw [if_pos rfl]
        exact Function.update_self ..
      · rw [if_neg (by simp [hj])]
        exact Function.update_of_ne hj ..

theorem load_store_self : (s.store ptr v).load ptr = u16 v := by
  rw [load_store, if_pos rfl]

theorem load_store_ne (h : ptr' ≠ ptr) : (s.store ptr v).load ptr' = s.load ptr' := by
  rw [load_store, if_neg h]

@[simp] theorem store_disk : (s.store ptr v).disk = s.disk := by cases ptr <;> rfl
@[simp] theorem store_pageMap : (s.store ptr v).pageMap = s.pageMap := by cases ptr <;> rfl

/-- The pointers to the pages of files of up to 28 pages. -/
def Reached : PagePtr → Prop
  | .inode _ p => p < 12
  | .fmap i => i < 16

/-- The words at a page number; page 0 is full of zeros. -/
def wordsAt (s : Kfs) (page a : Nat) : BitVec 32 := if page = 0 then 0 else s.disk page a

/-- Pages in use are marked, and each is listed once. -/
structure PageInv (s : Kfs) : Prop where
  low : Low s.pageMap kfsNpgDisk
  first : s.pageMap.bmp.isSet 0 = true
  used : ∀ ptr, Reached ptr → s.load ptr ≠ 0 →
    s.load ptr < kfsNpgDisk ∧ s.pageMap.bmp.isSet (s.load ptr) = true
  once : ∀ ptr ptr', Reached ptr → Reached ptr' → s.load ptr ≠ 0 → s.load ptr = s.load ptr' →
    ptr = ptr'

/-- The pages of all pointers but one are the same. -/
structure OnlyAt (ptr : PagePtr) (s s' : Kfs) : Prop where
  load : ∀ ptr', ptr' ≠ ptr → s'.load ptr' = s.load ptr'
  words : ∀ ptr', Reached ptr' → ptr' ≠ ptr → ∀ a,
    wordsAt s' (s'.load ptr') a = wordsAt s (s.load ptr') a

theorem OnlyAt.trans {s₁ s₂ s₃ : Kfs} (h : OnlyAt ptr s₁ s₂) (h' : OnlyAt ptr s₂ s₃) :
    OnlyAt ptr s₁ s₃ where
  load := fun q hq => (h'.load q hq).trans (h.load q hq)
  words := fun q hr hq a => (h'.words q hr hq a).trans (h.words q hr hq a)

theorem u16_of_lt (h : n < kfsNpgDisk) : u16 n = n := by
  have hmax : kfsNpgDisk = 8192 := rfl
  exact Nat.mod_eq_of_lt (by omega)

/-- A page for a pointer that has none. -/
theorem PageInv.alloc (hinv : PageInv s) (ptr : PagePtr) (hfree : FreePages s (n + 1)) :
    ∃ page s₁, kfsAllocPage s = (page, s₁) ∧ PageInv (s₁.store ptr page) ∧
      (s₁.store ptr page).load ptr ≠ 0 ∧ OnlyAt ptr s (s₁.store ptr page) ∧
        FreePages (s₁.store ptr page) n := by
  obtain ⟨l, hnd, hlen, hl⟩ := hfree
  obtain ⟨q, hq⟩ : ∃ q, q ∈ l := List.exists_mem_of_length_pos (by omega)
  obtain ⟨page, hlt, hclear, heq, hlow⟩ := hinv.low.alloc ⟨q, hl q hq⟩
  have hne : page ≠ 0 := by
    rintro rfl
    rw [hinv.first] at hclear
    exact absurd hclear (by decide)
  have hother : ∀ ptr', Reached ptr' → s.load ptr' ≠ page := by
    intro ptr' hr' he
    have := (hinv.used ptr' hr' (by rw [he]; exact hne)).2
    rw [he, hclear] at this
    exact absurd this (by decide)
  have hset : ∀ k, (s.pageMap.bmp.set page).isSet k = (decide (k = page) || s.pageMap.bmp.isSet k) :=
    fun k => Bitmap.isSet_set ..
  generalize hs₁ : ({ s with pageMap := ⟨s.pageMap.bmp.set page, page⟩ } : Kfs) = s₁
  have hmap : s₁.pageMap = ⟨s.pageMap.bmp.set page, page⟩ := by rw [← hs₁]
  have hdisk : s₁.disk = s.disk := by rw [← hs₁]
  have hload : ∀ ptr', s₁.load ptr' = s.load ptr' := fun ptr' => by
    rw [← hs₁]
    cases ptr' <;> rfl
  have hself : (s₁.store ptr page).load ptr = page := by rw [load_store_self, u16_of_lt hlt]
  have hne' : ∀ ptr', ptr' ≠ ptr → (s₁.store ptr page).load ptr' = s.load ptr' := fun ptr' h => by
    rw [load_store_ne h, hload]
  refine ⟨page, s₁, ?_, ⟨?_, ?_, fun ptr' hr' hnz => ?_, fun x y hx hy hnz hxy => ?_⟩, ?_,
    ⟨hne', fun ptr' hr' h b => ?_⟩, ?_⟩
  · rw [kfsAllocPage, heq]
    dsimp only
    rw [hs₁, u16_of_lt hlt]
  · rw [store_pageMap, hmap]
    exact hlow
  · rw [store_pageMap, hmap]
    simp only [hset, hinv.first, Bool.or_true]
  · rw [store_pageMap, hmap]
    by_cases h : ptr' = ptr
    · rw [h, hself]
      exact ⟨hlt, by simp only [hset, decide_true, Bool.true_or]⟩
    · rw [hne' ptr' h] at hnz ⊢
      obtain ⟨hlt', hused⟩ := hinv.used ptr' hr' hnz
      exact ⟨hlt', by simp only [hset, hused, Bool.or_true]⟩
  · by_cases hxp : x = ptr
    · by_cases hyp : y = ptr
      · rw [hxp, hyp]
      · rw [hxp, hself, hne' y hyp] at hxy
        exact absurd hxy.symm (hother y hy)
    · by_cases hyp : y = ptr
      · rw [hyp, hself, hne' x hxp] at hxy
        exact absurd hxy (hother x hx)
      · rw [hne' x hxp] at hnz hxy
        rw [hne' y hyp] at hxy
        exact hinv.once x y hx hy hnz hxy
  · rw [hself]
    exact hne
  · rw [hne' ptr' h, wordsAt, wordsAt, store_disk, hdisk]
  · refine ⟨l.erase page, hnd.erase page, ?_, fun p hp => ?_⟩
    · rw [List.length_erase]
      split <;> omega
    · obtain ⟨hpne, hp⟩ := hnd.mem_erase_iff.mp hp
      rw [store_pageMap, hmap]
      refine ⟨(hl p hp).1, ?_⟩
      simp only [hset, (hl p hp).2, Bool.or_false, decide_eq_false hpne]

theorem foldl_or_eq_zero (buf : KfsBuf) (l : List Nat) (init : BitVec 32) :
    l.foldl (fun res a => res ||| buf a) init = 0 ↔ init = 0 ∧ ∀ a ∈ l, buf a = 0 := by
  induction l generalizing init with
  | nil => simp
  | cons b l ih =>
    have hor : init ||| buf b = 0 ↔ init = 0 ∧ buf b = 0 := BitVec.or_eq_zero_iff
    rw [List.foldl_cons, ih, hor, List.forall_mem_cons, and_assoc]

/-- The words of a buffer on a page of the disk. -/
def Kfs.setPage (s : Kfs) (page : Nat) (buf : KfsBuf) : Kfs :=
  { s with disk := Function.update s.disk page fun a => if a < 1024 then buf a else s.disk page a }

@[simp] theorem setPage_load (s : Kfs) (page : Nat) (buf : KfsBuf) (ptr : PagePtr) :
    (s.setPage page buf).load ptr = s.load ptr := by cases ptr <;> rfl

@[simp] theorem setPage_pageMap (s : Kfs) (page : Nat) (buf : KfsBuf) :
    (s.setPage page buf).pageMap = s.pageMap := rfl

theorem setPage_disk_ne {page p : Nat} (h : p ≠ page) : (s.setPage page buf).disk p = s.disk p :=
  Function.update_of_ne h ..

theorem setPage_disk {page : Nat} (ha : a < 1024) : (s.setPage page buf).disk page a = buf a := by
  rw [Kfs.setPage]
  simp only [Function.update_self, if_pos ha]

@[simp] theorem kfsFreePage_load (s : Kfs) (page : Nat) (ptr : PagePtr) :
    (kfsFreePage s page).load ptr = s.load ptr := by cases ptr <;> rfl

/-- The words that are read at a page number. -/
theorem kfsRead_words {d k page : Nat} (hpage : kfsPage s (s.dentry d).inode k = some page)
    (ha : a < 1024) : (kfsRead s d k buf).2 a = wordsAt s page a := by
  rw [kfsRead, hpage]
  simp only
  unfold kfsReadPage wordsAt
  split
  · exact if_pos ha
  · exact if_pos ha

/-- A buffer on the page of a pointer: a buffer full of zeros gives the page back. -/
theorem kfsWriteAt_cases (buf : KfsBuf) (hnz : s.load ptr ≠ 0) (hlt : s.load ptr < kfsNpgDisk) :
    (∀ a, a < 1024 → buf a = 0) ∧ kfsWriteAt s ptr buf =
        (0, (kfsFreePage (s.setPage (s.load ptr) buf) (s.load ptr)).store ptr 0) ∨
      kfsWriteAt s ptr buf = (1, s.setPage (s.load ptr) buf) := by
  have hpage : ¬ (s.load ptr = 0 ∨ s.load ptr ≥ kfsNpgDisk) := by
    rintro (h | h)
    · exact hnz h
    · omega
  have hset : ({ s with disk := Function.update s.disk (s.load ptr) (fun a =>
    if a < 1024 then buf a else s.disk (s.load ptr) a) } : Kfs) = s.setPage (s.load ptr) buf := rfl
  by_cases hzero : (List.range 1024).foldl (fun res a => res ||| buf a) 0 = 0
  · refine .inl ⟨fun a ha => ((foldl_or_eq_zero buf _ 0).mp hzero).2 a (List.mem_range.mpr ha), ?_⟩
    rw [kfsWriteAt]
    simp only [if_neg hnz, kfsWritePage, if_neg hpage, hzero, ne_eq, not_true, if_false, hset,
      setPage_load]
  · refine .inr ?_
    rw [kfsWriteAt]
    simp only [if_neg hnz, kfsWritePage, if_neg hpage, ne_eq, hzero, not_false_eq_true, if_true,
      hset, one_ne_zero]

theorem PageInv.congr (hinv : PageInv s) (hload : ∀ ptr, s'.load ptr = s.load ptr)
    (hmap : s'.pageMap = s.pageMap) : PageInv s' where
  low := by
    rw [hmap]
    exact hinv.low
  first := by
    rw [hmap]
    exact hinv.first
  used := fun ptr hr hnz => by
    rw [hload] at hnz ⊢
    rw [hmap]
    exact hinv.used ptr hr hnz
  once := fun x y hx hy hnz hxy => by
    rw [hload] at hnz
    rw [hload, hload] at hxy
    exact hinv.once x y hx hy hnz hxy

/-- A buffer on the page of a pointer. -/
theorem PageInv.writePage (hinv : PageInv s) (hr : Reached ptr) (hnz : s.load ptr ≠ 0) :
    PageInv (kfsWriteAt s ptr buf).2 ∧ OnlyAt ptr s (kfsWriteAt s ptr buf).2 ∧
      (∀ a, a < 1024 →
        wordsAt (kfsWriteAt s ptr buf).2 ((kfsWriteAt s ptr buf).2.load ptr) a = buf a) ∧
      (FreePages s n → FreePages (kfsWriteAt s ptr buf).2 n) := by
  obtain ⟨hlt, hset⟩ := hinv.used ptr hr hnz
  have hother : ∀ ptr', Reached ptr' → ptr' ≠ ptr → s.load ptr' ≠ s.load ptr := fun ptr' hr' hne he =>
    hne (hinv.once ptr ptr' hr hr' hnz he.symm).symm
  have hwords : ∀ ptr', Reached ptr' → ptr' ≠ ptr → ∀ b,
      wordsAt (s.setPage (s.load ptr) buf) (s.load ptr') b = wordsAt s (s.load ptr') b :=
    fun ptr' hr' hne b => by rw [wordsAt, wordsAt, setPage_disk_ne (hother ptr' hr' hne)]
  rcases kfsWriteAt_cases buf hnz hlt with ⟨hall, hres⟩ | hres
  · -- the buffer is full of zeros, the page is given back
    rw [hres]
    simp only
    generalize hs₂ : kfsFreePage (s.setPage (s.load ptr) buf) (s.load ptr) = s₂
    have hload₂ : ∀ ptr', s₂.load ptr' = s.load ptr' := fun ptr' => by
      rw [← hs₂, kfsFreePage_load, setPage_load]
    have hdisk₂ : s₂.disk = (s.setPage (s.load ptr) buf).disk := by rw [← hs₂, kfsFreePage]
    have hmap₂ : s₂.pageMap = kfsFreeBitmap s.pageMap (s.load ptr) := by
      rw [← hs₂, kfsFreePage, setPage_pageMap]
    have hclear : ∀ k, s₂.pageMap.bmp.isSet k
        = (s.pageMap.bmp.isSet k && !decide (k = s.load ptr)) := fun k => by
      rw [hmap₂, kfsFreeBitmap, Bitmap.isSet_clear, Bool.and_comm]
    have hself : (s₂.store ptr 0).load ptr = 0 := load_store_self
    have hne' : ∀ ptr', ptr' ≠ ptr → (s₂.store ptr 0).load ptr' = s.load ptr' := fun ptr' h => by
      rw [load_store_ne h, hload₂]
    refine ⟨⟨?_, ?_, fun ptr' hr' h => ?_, fun x y hx hy hxnz hxy => ?_⟩,
      ⟨hne', fun ptr' hr' h b => ?_⟩, fun a ha => ?_, ?_⟩
    · rw [store_pageMap, hmap₂]
      exact hinv.low.free _
    · rw [store_pageMap, hclear, hinv.first, decide_eq_false (Ne.symm hnz)]
      rfl
    · have hp : ptr' ≠ ptr := by
        rintro rfl
        exact h hself
      rw [hne' ptr' hp] at h ⊢
      obtain ⟨hlt', hused⟩ := hinv.used ptr' hr' h
      rw [store_pageMap, hclear, hused, decide_eq_false (hother ptr' hr' hp)]
      exact ⟨hlt', rfl⟩
    · have hxp : x ≠ ptr := by
        rintro rfl
        exact hxnz hself
      have hyp : y ≠ ptr := by
        rintro rfl
        rw [hself] at hxy
        exact hxnz hxy
      rw [hne' x hxp] at hxnz hxy
      rw [hne' y hyp] at hxy
      exact hinv.once x y hx hy hxnz hxy
    · rw [hne' ptr' h, ← hwords ptr' hr' h b, wordsAt, wordsAt, store_disk, hdisk₂]
    · rw [hself, hall a ha]
      rfl
    · rintro ⟨l, hnd, hlen, hl⟩
      refine ⟨l, hnd, hlen, fun p hp => ⟨(hl p hp).1, ?_⟩⟩
      rw [store_pageMap, hclear, (hl p hp).2, Bool.false_and]
  · rw [hres]
    simp only
    refine ⟨hinv.congr (fun _ => setPage_load ..) (setPage_pageMap ..),
      ⟨fun ptr' _ => setPage_load .., fun ptr' hr' h b => ?_⟩, fun a ha => ?_, ?_⟩
    · rw [setPage_load, hwords ptr' hr' h b]
    · rw [setPage_load, wordsAt, if_neg hnz, setPage_disk ha]
    · intro hfree
      rwa [FreePages, setPage_pageMap]

/-- `kfs_write` behind `kfs_ppage`, when a page is free. -/
theorem PageInv.writeAt (hinv : PageInv s) (hr : Reached ptr) (hfree : FreePages s (n + 1)) :
    PageInv (kfsWriteAt s ptr buf).2 ∧ OnlyAt ptr s (kfsWriteAt s ptr buf).2 ∧
      (∀ a, a < 1024 →
        wordsAt (kfsWriteAt s ptr buf).2 ((kfsWriteAt s ptr buf).2.load ptr) a = buf a) ∧
      FreePages (kfsWriteAt s ptr buf).2 n := by
  by_cases hzero : s.load ptr = 0
  · obtain ⟨page, s₁, heq, hinv₁, hnz, honly, hfree₁⟩ := hinv.alloc ptr hfree
    have hsame : kfsWriteAt s ptr buf = kfsWriteAt (s₁.store ptr page) ptr buf := by
      rw [kfsWriteAt, kfsWriteAt]
      simp only [if_pos hzero, heq, if_neg hnz]
    obtain ⟨hinv₂, honly₂, hwords, hfree₂⟩ := hinv₁.writePage hr hnz
    rw [hsame]
    exact ⟨hinv₂, honly.trans honly₂, hwords, hfree₂ hfree₁⟩
  · obtain ⟨hinv₁, honly, hwords, hfree₁⟩ := hinv.writePage hr hzero
    obtain ⟨l, hnd, hlen, hl⟩ := hfree
    exact ⟨hinv₁, honly, hwords, hfree₁ ⟨l, hnd, by omega, hl⟩⟩

end

/-! ## A file -/

/-- What a write keeps: the names, and of the inodes all but the pages and the size of one. -/
structure SameNames (i : Nat) (s s' : Kfs) : Prop where
  dentry : s'.dentry = s.dentry
  dentryMap : s'.dentryMap = s.dentryMap
  inodeMap : s'.inodeMap = s.inodeMap
  type : ∀ j, (s'.inode j).type = (s.inode j).type
  count : ∀ j, (s'.inode j).count = (s.inode j).count
  fmap : ∀ j, (s'.inode j).fmap = (s.inode j).fmap
  size : ∀ j, j ≠ i → (s'.inode j).size = (s.inode j).size

section
variable {s s' : Kfs} {i d k n a : Nat} {ptr : PagePtr} {buf : KfsBuf} {data : List (BitVec 8)}

theorem SameNames.refl (i : Nat) (s : Kfs) : SameNames i s s :=
  ⟨rfl, rfl, rfl, fun _ => rfl, fun _ => rfl, fun _ => rfl, fun _ _ => rfl⟩

theorem SameNames.trans {s₁ s₂ s₃ : Kfs} (h : SameNames i s₁ s₂) (h' : SameNames i s₂ s₃) :
    SameNames i s₁ s₃ where
  dentry := h'.dentry.trans h.dentry
  dentryMap := h'.dentryMap.trans h.dentryMap
  inodeMap := h'.inodeMap.trans h.inodeMap
  type := fun j => (h'.type j).trans (h.type j)
  count := fun j => (h'.count j).trans (h.count j)
  fmap := fun j => (h'.fmap j).trans (h.fmap j)
  size := fun j hj => (h'.size j hj).trans (h.size j hj)

theorem sameNames_setInode {g : KfsInode → KfsInode} (htype : ∀ e, (g e).type = e.type)
    (hcount : ∀ e, (g e).count = e.count) (hfmap : ∀ e, (g e).fmap = e.fmap) :
    SameNames i s (s.setInode i g) where
  dentry := rfl
  dentryMap := rfl
  inodeMap := rfl
  type := fun _ => Kfs.setInode_field KfsInode.type htype
  count := fun _ => Kfs.setInode_field KfsInode.count hcount
  fmap := fun _ => Kfs.setInode_field KfsInode.fmap hfmap
  size := fun j hj => by rw [Kfs.setInode_inode_ne hj]

/-- A page number is stored; no size changes. -/
theorem store_size (s : Kfs) (ptr : PagePtr) (v j : Nat) :
    ((s.store ptr v).inode j).size = (s.inode j).size := by
  cases ptr with
  | inode i' p =>
    rw [Kfs.store]
    exact Kfs.setInode_field KfsInode.size fun _ => rfl
  | fmap _ => rfl

theorem sameNames_store (s : Kfs) (ptr : PagePtr) (v : Nat) : SameNames i s (s.store ptr v) := by
  cases ptr with
  | inode i' p =>
    have h : SameNames i' s (s.store (.inode i' p) v) := by
      rw [Kfs.store]
      exact sameNames_setInode (fun _ => rfl) (fun _ => rfl) fun _ => rfl
    exact ⟨h.dentry, h.dentryMap, h.inodeMap, h.type, h.count, h.fmap, fun j _ => store_size s _ v j⟩
  | fmap _ => exact ⟨rfl, rfl, rfl, fun _ => rfl, fun _ => rfl, fun _ => rfl, fun _ _ => rfl⟩

/-- `kfs_write` behind `kfs_ppage`: the names and the sizes stay. -/
theorem kfsWriteAt_names (i : Nat) (s : Kfs) (ptr : PagePtr) (buf : KfsBuf) :
    SameNames i s (kfsWriteAt s ptr buf).2 ∧
      ∀ j, ((kfsWriteAt s ptr buf).2.inode j).size = (s.inode j).size := by
  obtain ⟨s₁, hs₁, hsame, hsize⟩ : ∃ s₁, s₁ = (if s.load ptr = 0 then
      (kfsAllocPage s).2.store ptr (kfsAllocPage s).1 else s) ∧ SameNames i s s₁ ∧
        ∀ j, (s₁.inode j).size = (s.inode j).size := by
    refine ⟨_, rfl, ?_⟩
    split
    · have halloc : SameNames i s (kfsAllocPage s).2 :=
        ⟨rfl, rfl, rfl, fun _ => rfl, fun _ => rfl, fun _ => rfl, fun _ _ => rfl⟩
      exact ⟨halloc.trans (sameNames_store _ ptr _), fun j => store_size _ ptr _ j⟩
    · exact ⟨SameNames.refl i s, fun _ => rfl⟩
  have hwrite : ∀ page, SameNames i s₁ (kfsWritePage s₁ buf page).2 ∧
      ∀ j, ((kfsWritePage s₁ buf page).2.inode j).size = (s₁.inode j).size := by
    intro page
    rw [kfsWritePage]
    split
    · exact ⟨SameNames.refl i s₁, fun _ => rfl⟩
    · exact ⟨⟨rfl, rfl, rfl, fun _ => rfl, fun _ => rfl, fun _ => rfl, fun _ _ => rfl⟩, fun _ => rfl⟩
  rw [kfsWriteAt]
  simp only [← hs₁]
  split
  · exact ⟨hsame, hsize⟩
  · obtain ⟨hsame₂, hsize₂⟩ := hwrite (s₁.load ptr)
    split
    · exact ⟨hsame.trans hsame₂, fun j => (hsize₂ j).trans (hsize j)⟩
    · have hfree : ∀ page, SameNames i (kfsWritePage s₁ buf (s₁.load ptr)).2
          (kfsFreePage (kfsWritePage s₁ buf (s₁.load ptr)).2 page) := fun page =>
        ⟨rfl, rfl, rfl, fun _ => rfl, fun _ => rfl, fun _ => rfl, fun _ _ => rfl⟩
      refine ⟨(hsame.trans hsame₂).trans ((hfree _).trans (sameNames_store _ ptr 0)), fun j => ?_⟩
      rw [store_size]
      exact (hsize₂ j).trans (hsize j)

/-- The pointer to the page `k` of a file that lists its pages in fmap 0. -/
def ptrOf (i k : Nat) : PagePtr := if k < 12 then .inode i k else .fmap (k - 12)

theorem reached_ptrOf (i : Nat) (hk : k < 28) : Reached (ptrOf i k) := by
  unfold ptrOf
  split
  · assumption
  · show k - 12 < 16
    omega

/-- The next page of a file that has its pages before it. -/
theorem kfsWrite_eq (hfmap : (s.inode (s.dentry d).inode).fmap = 0)
    (hsize : 12 ≤ k → (s.inode (s.dentry d).inode).size = 4096 * k) (hk : k < 28) :
    kfsWrite s d k buf = kfsWriteAt s (ptrOf (s.dentry d).inode k) buf := by
  have hu16 : u16 k = k := Nat.mod_eq_of_lt (by omega)
  rw [kfsWrite, hu16, kfsPpage]
  unfold ptrOf
  by_cases hlow : k < 12
  · simp only [if_pos hlow]
  · -- the file has its first twelve pages, and no fmap is made
    rw [hsize (by omega), Nat.mul_div_cancel_left k (by decide)]
    simp only [if_neg hlow, kfsPpage1, if_pos (show k - 12 < 16 by omega), hfmap, Nat.mul_zero,
      Nat.zero_add]

theorem pagesOf_nil : pagesOf [] = 0 := rfl

theorem pagesOf_of_ne (h : data ≠ []) : pagesOf data = pagesOf (data.drop 4096) + 1 := by
  have := List.length_pos_iff.mpr h
  unfold pagesOf
  rw [List.length_drop]
  omega

theorem chunk_drop (data : List (BitVec 8)) (m a : Nat) :
    chunk (data.drop 4096) m a = chunk data (m + 1) a := by
  have hbyte : ∀ b, (data.drop 4096).getD (4096 * m + 4 * a + b) 0
      = data.getD (4096 * (m + 1) + 4 * a + b) 0 := fun b => by
    rw [List.getD_eq_getElem?_getD, List.getD_eq_getElem?_getD, List.getElem?_drop]
    congr 2
    omega
  unfold chunk Mem.readWord
  have h0 := hbyte 0
  simp only [Nat.add_zero] at h0
  simp only [hbyte, h0]

theorem pageBuffer_take (ha : a < 1024) : pageBuffer (data.take 4096) a = chunk data 0 a := by
  have hbyte : ∀ b, b < 4 → (data.take 4096).getD (4 * a + b) 0 = data.getD (4 * a + b) 0 :=
    fun b hb => by
      rw [List.getD_eq_getElem?_getD, List.getD_eq_getElem?_getD,
        List.getElem?_take_of_lt (by omega)]
  unfold pageBuffer chunk Mem.readWord
  have h0 := hbyte 0 (by decide)
  simp only [Nat.mul_zero, Nat.zero_add, Nat.add_zero] at h0 ⊢
  rw [h0, hbyte 1 (by decide), hbyte 2 (by decide), hbyte 3 (by decide)]

/-- What the storage of a file does, from page `k` on. -/
structure StoredFrom (i k : Nat) (rest : List (BitVec 8)) (s s' : Kfs) : Prop where
  pages : PageInv s'
  names : SameNames i s s'
  size : (s'.inode i).size = if rest = [] then (s.inode i).size else 4096 * k + rest.length
  at_ : ∀ m, m < pagesOf rest → ∀ a, a < 1024 →
    wordsAt s' (s'.load (ptrOf i (k + m))) a = chunk rest m a
  other : ∀ ptr, Reached ptr → (∀ m, m < pagesOf rest → ptr ≠ ptrOf i (k + m)) → ∀ a,
    wordsAt s' (s'.load ptr) a = wordsAt s (s.load ptr) a

theorem ptrOf_injective {k m : Nat} (h : ptrOf i k = ptrOf i m) : k = m := by
  unfold ptrOf at h
  split at h <;> split at h <;> simp at h
  · exact h
  · omega

theorem StoredFrom.nil (hinv : PageInv s) : StoredFrom i k [] s s where
  pages := hinv
  names := SameNames.refl i s
  size := (if_pos rfl).symm
  at_ := fun m hm => absurd hm (Nat.not_lt_zero m)
  other := fun _ _ _ _ => rfl

/-- `kfs_set_size` is not seen by the pages. -/
theorem kfsSetSize_load (s : Kfs) (d n : Nat) (ptr : PagePtr) :
    (kfsSetSize s d n).load ptr = s.load ptr := by
  cases ptr with
  | inode j p =>
    rw [Kfs.load, Kfs.load, kfsSetSize]
    refine congrFun ?_ p
    exact Kfs.setInode_field KfsInode.page fun _ => rfl
  | fmap _ => rfl

/-- One page and the rest of the pages. -/
theorem StoredFrom.cons {rest : List (BitVec 8)} {s₁ s₂ s₃ : Kfs} (hne : rest ≠ []) (hk : k < 28)
    (honly : OnlyAt (ptrOf i k) s s₁) (hnames : SameNames i s s₁)
    (hwords : ∀ a, a < 1024 → wordsAt s₁ (s₁.load (ptrOf i k)) a = chunk rest 0 a)
    (hload : ∀ ptr, s₂.load ptr = s₁.load ptr) (hdisk : s₂.disk = s₁.disk)
    (hnames₂ : SameNames i s₁ s₂)
    (hsize : rest.drop 4096 = [] → (s₂.inode i).size = 4096 * k + rest.length)
    (h : StoredFrom i (k + 1) (rest.drop 4096) s₂ s₃) : StoredFrom i k rest s s₃ := by
  have hpages := pagesOf_of_ne hne
  have hsame : ∀ ptr a, wordsAt s₂ (s₂.load ptr) a = wordsAt s₁ (s₁.load ptr) a := fun ptr a => by
    rw [hload, wordsAt, wordsAt, hdisk]
  have hrest : ∀ ptr, Reached ptr → (∀ m, m < pagesOf (rest.drop 4096) → ptr ≠ ptrOf i (k + 1 + m)) →
      ∀ a, wordsAt s₃ (s₃.load ptr) a = wordsAt s₁ (s₁.load ptr) a := fun ptr hr hm a =>
    (h.other ptr hr hm a).trans (hsame ptr a)
  refine ⟨h.pages, (hnames.trans hnames₂).trans h.names, ?_, fun m hm a ha => ?_,
    fun ptr hr hm a => ?_⟩
  · rw [h.size, if_neg hne]
    by_cases hlast : rest.drop 4096 = []
    · rw [if_pos hlast, hsize hlast]
    · have := List.drop_eq_nil_iff.not.mp hlast
      rw [if_neg hlast, List.length_drop]
      omega
  · cases m with
    | zero =>
      rw [Nat.add_zero, hrest _ (reached_ptrOf i hk) fun m' _ he => ?_, hwords a ha]
      have := ptrOf_injective he
      omega
    | succ m =>
      rw [show k + (m + 1) = k + 1 + m by omega, h.at_ m (by omega) a ha, chunk_drop]
  · rw [hrest ptr hr fun m' hm' he => ?_, honly.words ptr hr ?_]
    · have := hm 0 (by omega)
      rwa [Nat.add_zero] at this
    · exact hm (m' + 1) (by omega) (he.trans (by rw [Nat.add_assoc, Nat.add_comm 1]))

/-- The loop of `add_new_file`. -/
theorem addNewFileLoop_spec {fuel : Nat} {rest : List (BitVec 8)} (hinv : PageInv s)
    (hi : (s.dentry d).inode = i) (hfmap : (s.inode i).fmap = 0)
    (hsize : 12 ≤ k → rest ≠ [] → (s.inode i).size = 4096 * k) (hlen : k + pagesOf rest ≤ 28)
    (hfree : FreePages s (pagesOf rest + n)) (hfuel : rest.length ≤ fuel) :
    StoredFrom i k rest s (addNewFileLoop d fuel rest k s) ∧
      FreePages (addNewFileLoop d fuel rest k s) n := by
  induction fuel generalizing rest k s with
  | zero =>
    obtain rfl := List.length_eq_zero_iff.mp (Nat.le_zero.mp hfuel)
    rw [pagesOf_nil, Nat.zero_add] at hfree
    exact ⟨StoredFrom.nil hinv, hfree⟩
  | succ fuel ih =>
    rw [addNewFileLoop]
    by_cases hne : rest = []
    · subst hne
      rw [pagesOf_nil, Nat.zero_add] at hfree
      exact ⟨StoredFrom.nil hinv, hfree⟩
    · have hbuf : rest.take 4096 ≠ [] := by
        rw [Ne, List.take_eq_nil_iff, not_or]
        exact ⟨by decide, hne⟩
      have hpages := pagesOf_of_ne hne
      have hk : k < 28 := by omega
      subst hi
      simp only [if_neg hbuf]
      rw [kfsWrite_eq hfmap (fun hhigh => hsize hhigh hne) hk]
      rw [hpages, Nat.add_right_comm] at hfree
      generalize hptr : ptrOf (s.dentry d).inode k = ptr
      generalize hbuffer : pageBuffer (rest.take 4096) = buf
      obtain ⟨hinv₁, honly, hwords, hfree₁⟩ :=
        @PageInv.writeAt s ptr _ buf hinv (hptr ▸ reached_ptrOf _ hk) hfree
      obtain ⟨hnames₁, hsize₁⟩ := kfsWriteAt_names (s.dentry d).inode s ptr buf
      generalize (kfsWriteAt s ptr buf).2 = s₁ at hinv₁ honly hwords hfree₁ hnames₁ hsize₁ ⊢
      -- the size that the read tells
      generalize hs₂ : kfsSetSize s₁ d ((rest.take 4096).length + k * 4096) = s₂
      have hload₂ : ∀ ptr, s₂.load ptr = s₁.load ptr := fun ptr => by rw [← hs₂, kfsSetSize_load]
      have hmap₂ : s₂.pageMap = s₁.pageMap := by rw [← hs₂, kfsSetSize, Kfs.setInode]
      have hdisk₂ : s₂.disk = s₁.disk := by rw [← hs₂, kfsSetSize, Kfs.setInode]
      have hino₁ : (s₁.dentry d).inode = (s.dentry d).inode := by rw [hnames₁.dentry]
      have hnames₂ : SameNames (s.dentry d).inode s₁ s₂ := by
        rw [← hs₂, kfsSetSize, hino₁]
        exact sameNames_setInode (fun _ => rfl) (fun _ => rfl) fun _ => rfl
      have hsize₂ : (s₂.inode (s.dentry d).inode).size = (rest.take 4096).length + k * 4096 := by
        rw [← hs₂, kfsSetSize, hino₁, Kfs.setInode_inode, List.length_take]
        exact Nat.mod_eq_of_lt (by omega)
      rw [List.length_take] at hsize₂
      have hsize' : 12 ≤ k + 1 → rest.drop 4096 ≠ [] →
          (s₂.inode (s.dentry d).inode).size = 4096 * (k + 1) := fun _ hnext => by
        have := List.drop_eq_nil_iff.not.mp hnext
        omega
      have hfuel' : (rest.drop 4096).length ≤ fuel := by
        have := List.length_pos_iff.mpr hne
        rw [List.length_drop]
        omega
      obtain ⟨hstored, hfree₃⟩ := ih (hinv₁.congr hload₂ hmap₂) (by rw [hnames₂.dentry, hino₁])
        (by rw [hnames₂.fmap, hnames₁.fmap, hfmap]) hsize' (by omega)
        (by rwa [FreePages, hmap₂]) hfuel'
      refine ⟨StoredFrom.cons hne hk (hptr ▸ honly) hnames₁ (fun a ha => ?_) hload₂ hdisk₂ hnames₂
        (fun hlast => ?_) hstored, hfree₃⟩
      · rw [hptr, hwords a ha, ← hbuffer, pageBuffer_take ha]
      · have := List.drop_eq_nil_iff.mp hlast
        omega

end

/-! ## Opens -/

/-- What an open keeps: the pages and the sizes. -/
structure SameFiles (s s' : Kfs) : Prop where
  pageMap : s'.pageMap = s.pageMap
  fmaps : s'.fmaps = s.fmaps
  disk : s'.disk = s.disk
  size : ∀ j, (s'.inode j).size = (s.inode j).size
  page : ∀ j, (s'.inode j).page = (s.inode j).page
  fmap : ∀ j, (s'.inode j).fmap = (s.inode j).fmap

section
variable {s s' : Kfs}

theorem SameFiles.refl (s : Kfs) : SameFiles s s :=
  ⟨rfl, rfl, rfl, fun _ => rfl, fun _ => rfl, fun _ => rfl⟩

theorem SameFiles.trans {s₁ s₂ s₃ : Kfs} (h : SameFiles s₁ s₂) (h' : SameFiles s₂ s₃) :
    SameFiles s₁ s₃ where
  pageMap := h'.pageMap.trans h.pageMap
  fmaps := h'.fmaps.trans h.fmaps
  disk := h'.disk.trans h.disk
  size := fun j => (h'.size j).trans (h.size j)
  page := fun j => (h'.page j).trans (h.page j)
  fmap := fun j => (h'.fmap j).trans (h.fmap j)

theorem sameFiles_setDentry (s : Kfs) (d : Nat) (f : KfsDentry → KfsDentry) :
    SameFiles s (s.setDentry d f) :=
  ⟨rfl, rfl, rfl, fun _ => rfl, fun _ => rfl, fun _ => rfl⟩

theorem sameFiles_setInode (s : Kfs) (i : Nat) {g : KfsInode → KfsInode}
    (hsize : ∀ e, (g e).size = e.size) (hpage : ∀ e, (g e).page = e.page)
    (hfmap : ∀ e, (g e).fmap = e.fmap) : SameFiles s (s.setInode i g) where
  pageMap := rfl
  fmaps := rfl
  disk := rfl
  size := fun _ => Kfs.setInode_field KfsInode.size hsize
  page := fun _ => Kfs.setInode_field KfsInode.page hpage
  fmap := fun _ => Kfs.setInode_field KfsInode.fmap hfmap

theorem SameFiles.load (h : SameFiles s s') (ptr : PagePtr) : s'.load ptr = s.load ptr := by
  cases ptr with
  | inode i p => rw [Kfs.load, Kfs.load, h.page]
  | fmap i => rw [Kfs.load, Kfs.load, h.fmaps]

theorem kfsAllocDentry_files (s : Kfs) (name : CStr) : SameFiles s (kfsAllocDentry s name).2 := by
  rw [kfsAllocDentry]
  have halloc : ∀ t, SameFiles s { s with dentryMap := t } := fun _ =>
    ⟨rfl, rfl, rfl, fun _ => rfl, fun _ => rfl, fun _ => rfl⟩
  dsimp only
  split
  · exact halloc _
  · rw [kfsStrcpyName]
    dsimp only
    split
    · exact (halloc _).trans (sameFiles_setDentry _ _ _)
    · exact ((halloc _).trans (sameFiles_setDentry _ _ _)).trans (sameFiles_setDentry _ _ _)

theorem kfsAllocInode_files (s : Kfs) (type : KfsType) : SameFiles s (kfsAllocInode s type).2 := by
  rw [kfsAllocInode]
  have halloc : ∀ t, SameFiles s { s with inodeMap := t } := fun _ =>
    ⟨rfl, rfl, rfl, fun _ => rfl, fun _ => rfl, fun _ => rfl⟩
  dsimp only
  split
  · exact halloc _
  · refine (halloc (kfsAllocBitmap s.inodeMap kfsMaxInode).2).trans ?_
    dsimp only
    exact sameFiles_setInode _ _ (fun _ => rfl) (fun _ => rfl) fun _ => rfl

theorem kfsCreate_files (s : Kfs) (root : Nat) (name : CStr) :
    SameFiles s (kfsCreate s root name).2 := by
  have hd := kfsAllocDentry_files s name
  rw [kfsCreate]
  cases hleaf : kfsAllocDentry s name with
  | mk leaf s₁ =>
    rw [hleaf] at hd
    have hi := kfsAllocInode_files s₁ .file
    dsimp only at hi ⊢
    cases hino : kfsAllocInode s₁ .file with
    | mk i s₂ =>
      rw [hino] at hi
      dsimp only at hi ⊢
      -- the fields of the new dentry are no part of the files
      exact (hd.trans hi).trans ⟨rfl, rfl, rfl, fun _ => rfl, fun _ => rfl, fun _ => rfl⟩

theorem kfsOpenat_files {root leaf : Nat} {name : CStr}
    (h : kfsOpenat s root name = some (leaf, s')) : SameFiles s s' := by
  rw [kfsOpenat, Option.bind_eq_bind] at h
  obtain ⟨found, -, h⟩ := Option.bind_eq_some_iff.mp h
  have hdir : SameFiles s (s.setInode (s.dentry root).inode fun e => { e with type := .dir }) :=
    sameFiles_setInode _ _ (fun _ => rfl) (fun _ => rfl) fun _ => rfl
  cases found with
  | some x =>
    rw [Option.some.injEq, Prod.mk.injEq] at h
    exact h.2 ▸ hdir
  | none =>
    have hs' : (kfsCreate _ root name).2 = s' := congrArg Prod.snd (Option.some.inj h)
    refine hs' ▸ hdir.trans ?_
    exact kfsCreate_files _ root name

theorem kfsOpenLoop_files {fuel d r : Nat} {next : CStr}
    (h : kfsOpenLoop fuel next d s = some (r, s')) : SameFiles s s' := by
  induction fuel generalizing next d s with
  | zero =>
    rw [kfsOpenLoop, Option.some.injEq, Prod.mk.injEq] at h
    exact h.2 ▸ SameFiles.refl s
  | succ fuel ih =>
    rw [kfsOpenLoop] at h
    cases hget : kfsGetname next with
    | none =>
      simp only [hget] at h
      rw [Option.some.injEq, Prod.mk.injEq] at h
      exact h.2 ▸ SameFiles.refl s
    | some q =>
      obtain ⟨name, next'⟩ := q
      simp only [hget] at h
      split at h
      · obtain ⟨⟨leaf, s₁⟩, hopen, h⟩ := Option.bind_eq_some_iff.mp h
        exact (kfsOpenat_files hopen).trans (ih h)
      · exact absurd h (by simp)

/-- The calls that make dentries. -/
theorem kfsDo_files {c : KfsRequest} (hc : c.IsOpen) (h : kfsDo s c = some s') : SameFiles s s' := by
  cases c with
  | open_ path =>
    obtain ⟨⟨r, s₁⟩, hopen, rfl⟩ := Option.map_eq_some_iff.mp h
    rw [kfsOpen] at hopen
    split at hopen
    · rw [Option.some.injEq, Prod.mk.injEq] at hopen
      exact hopen.2 ▸ SameFiles.refl s
    · cases hget : kfsGetname path with
      | none =>
        simp only [hget] at hopen
        rw [Option.some.injEq, Prod.mk.injEq] at hopen
        exact hopen.2 ▸ SameFiles.refl s
      | some q =>
        obtain ⟨name, next⟩ := q
        simp only [hget] at hopen
        obtain ⟨⟨d, s₂⟩, hloop, h₂⟩ := Option.bind_eq_some_iff.mp hopen
        have hs₁ : Kfs.mk .. = s₁ := congrArg Prod.snd (Option.some.inj h₂)
        refine hs₁ ▸ (kfsOpenLoop_files hloop).trans ?_
        exact ⟨rfl, rfl, rfl, fun _ => rfl, fun _ => rfl, fun _ => rfl⟩
  | openat root name =>
    obtain ⟨⟨leaf, s₁⟩, hopen, rfl⟩ := Option.map_eq_some_iff.mp h
    exact kfsOpenat_files hopen
  | unlink path => exact absurd hc id

theorem KfsInv.callOpen (hinv : KfsInv s) {c : KfsRequest} (hc : c.IsOpen) (hok : Permitted s c)
    (h : kfsDo s c = some s') : KfsInv s' ∧ Kept s s' := by
  cases c with
  | open_ path =>
    obtain ⟨r, s₁, heq, hinv₁, hkept, -⟩ := hinv.open_ hok
    rw [kfsDo, heq, Option.map_some, Option.some.injEq] at h
    exact h ▸ ⟨hinv₁, hkept⟩
  | openat root name =>
    obtain ⟨hroot, hw, hroom⟩ := hok
    obtain ⟨leaf, s₁, heq, hinv₁, -, hkept, -⟩ := hinv.openat hroot hw hroom
    rw [kfsDo, heq, Option.map_some, Option.some.injEq] at h
    exact h ▸ ⟨hinv₁, hkept⟩
  | unlink path => exact absurd hc id

end

/-! ## What is read back -/

/-- The last of the files that have a page `k`. -/
def lastWith (files : List Stored) (k : Nat) : Option Stored :=
  files.reverse.find? fun f => k < pagesOf f.2

section
variable {files : List Stored} {s s' : Kfs} {f : Stored} {k : Nat}

theorem lastWith_append (files : List Stored) (f : Stored) (k : Nat) :
    lastWith (files ++ [f]) k = if k < pagesOf f.2 then some f else lastWith files k := by
  rw [lastWith, List.reverse_append, List.reverse_singleton, List.singleton_append, List.find?_cons]
  by_cases h : k < pagesOf f.2
  · rw [if_pos h, decide_eq_true h]
  · rw [if_neg h, decide_eq_false h, lastWith]

theorem lastWith_spec {l : Stored} (h : lastWith files k = some l) :
    l ∈ files ∧ k < pagesOf l.2 := by
  refine ⟨List.mem_reverse.mp (List.mem_of_find?_eq_some h), ?_⟩
  simpa using List.find?_some h

theorem exists_lastWith (hf : f ∈ files) (hk : k < pagesOf f.2) : ∃ l, lastWith files k = some l := by
  rw [← Option.isSome_iff_exists, lastWith, List.find?_isSome]
  exact ⟨f, List.mem_reverse.mpr hf, by simpa using hk⟩

/-- The state behind a run of files of up to 28 pages: a file has its first twelve pages
for itself, and fmap 0 lists the other pages of the last file that has them. -/
structure StoreInv (files : List Stored) (s : Kfs) : Prop where
  names : KfsInv s
  pages : PageInv s
  fmap : ∀ i, (s.inode i).fmap = 0
  nodup : (files.map Prod.fst).Nodup
  allocated : ∀ f ∈ files, Allocated s f.1
  size : ∀ f ∈ files, f.2 ≠ [] → (s.inode (s.dentry f.1).inode).size = f.2.length
  own : ∀ f ∈ files, ∀ k, k < 12 → k < pagesOf f.2 → ∀ a, a < 1024 →
    wordsAt s (s.load (.inode (s.dentry f.1).inode k)) a = chunk f.2 k a
  shared : ∀ k, 12 ≤ k → k < 28 → ∀ f, lastWith files k = some f → ∀ a, a < 1024 →
    wordsAt s (s.load (.fmap (k - 12))) a = chunk f.2 k a

theorem pageInv_start : PageInv kfsStart where
  low := ⟨by decide, fun i hi => by
    have hbits : ∀ i, i < 26 → kfsStart.pageMap.bmp.isSet i = true := by decide
    exact hbits i hi⟩
  first := by decide
  used := fun ptr _ hnz => by
    cases ptr with
    | inode i p => exact absurd rfl hnz
    | fmap i => exact absurd rfl hnz
  once := fun ptr _ _ _ hnz _ => by
    cases ptr with
    | inode i p => exact absurd rfl hnz
    | fmap i => exact absurd rfl hnz

theorem storeInv_start : StoreInv [] kfsStart where
  names := kfsInv_start
  pages := pageInv_start
  fmap := fun _ => rfl
  nodup := List.nodup_nil
  allocated := fun _ hf => absurd hf List.not_mem_nil
  size := fun _ hf => absurd hf List.not_mem_nil
  own := fun _ hf => absurd hf List.not_mem_nil
  shared := fun _ _ _ _ hf => absurd hf (by simp [lastWith])

/-- An open keeps what is stored. -/
theorem StoreInv.opened (h : StoreInv files s) {c : KfsRequest} (hc : c.IsOpen)
    (hok : Permitted s c) (heq : kfsDo s c = some s') : StoreInv files s' := by
  have hfiles := kfsDo_files hc heq
  obtain ⟨hinv, hkept⟩ := h.names.callOpen hc hok heq
  have hwords : ∀ page a, wordsAt s' page a = wordsAt s page a := fun page a => by
    rw [wordsAt, wordsAt, hfiles.disk]
  exact
    { names := hinv
      pages := h.pages.congr hfiles.load hfiles.pageMap
      fmap := fun i => (hfiles.fmap i).trans (h.fmap i)
      nodup := h.nodup
      allocated := fun f hf => (hkept f.1 (h.allocated f hf)).1
      size := fun f hf hne => by
        rw [(hkept f.1 (h.allocated f hf)).2, hfiles.size]
        exact h.size f hf hne
      own := fun f hf k hk hp a ha => by
        rw [(hkept f.1 (h.allocated f hf)).2, hfiles.load, hwords]
        exact h.own f hf k hk hp a ha
      shared := fun k hlo hhi f hf a ha => by
        rw [hfiles.load, hwords]
        exact h.shared k hlo hhi f hf a ha }

/-- A file of up to 28 pages more. -/
theorem StoreInv.stored (h : StoreInv files s) {d n : Nat} {data : List (BitVec 8)}
    (hd : Allocated s d) (hnew : d ∉ files.map Prod.fst) (hlen : pagesOf data ≤ 28)
    (hfree : FreePages s (pagesOf data + n)) :
    StoreInv (files ++ [(d, data)]) (addNewFile s data d) ∧ FreePages (addNewFile s data d) n ∧
      ∀ x, Allocated (addNewFile s data d) x ↔ Allocated s x := by
  obtain ⟨hst, hfree'⟩ : StoredFrom (s.dentry d).inode 0 data s (addNewFile s data d) ∧
      FreePages (addNewFile s data d) n :=
    addNewFileLoop_spec h.pages rfl (h.fmap _) (fun hlo _ => absurd hlo (by decide)) (by omega) hfree
      (Nat.le_refl data.length)
  refine ⟨?_, hfree', fun x => by rw [Allocated, Allocated, hst.names.dentryMap]⟩
  generalize addNewFile s data d = s' at hst
  have hall : ∀ x, Allocated s' x ↔ Allocated s x := fun x => by
    rw [Allocated, Allocated, hst.names.dentryMap]
  have hino : ∀ f ∈ files, (s.dentry f.1).inode ≠ (s.dentry d).inode := fun f hf he =>
    hnew (List.mem_map.mpr ⟨f, hf, h.names.inodeOnce f.1 d (h.allocated f hf) hd he⟩)
  have hsized : data ≠ [] → (s'.inode (s.dentry d).inode).size = data.length := fun hne => by
    have hsize := hst.size
    rw [if_neg hne] at hsize
    omega
  refine
    { names := h.names.congr hst.names.dentry hst.names.dentryMap hst.names.inodeMap
        (fun x _ => hst.names.count _) fun x _ hdir => ?_
      pages := hst.pages
      fmap := fun i => (hst.names.fmap i).trans (h.fmap i)
      nodup := ?_
      allocated := fun f hf => ?_
      size := fun f hf hne => ?_
      own := fun f hf k hk hp a ha => ?_
      shared := fun k hlo hhi f hf a ha => ?_ }
  · unfold kfsIsdir at hdir ⊢
    rw [hst.names.dentry, hst.names.type]
    exact hdir
  · rw [List.map_append, List.map_singleton]
    exact List.Nodup.append h.nodup (List.nodup_singleton d) (List.disjoint_singleton.mpr hnew)
  · rcases List.mem_append.mp hf with hf | hf
    · exact (hall f.1).mpr (h.allocated f hf)
    · rw [List.mem_singleton.mp hf]
      exact (hall d).mpr hd
  · rw [hst.names.dentry]
    rcases List.mem_append.mp hf with hf | hf
    · rw [hst.names.size _ (hino f hf)]
      exact h.size f hf hne
    · obtain rfl := List.mem_singleton.mp hf
      exact hsized hne
  · rw [hst.names.dentry]
    rcases List.mem_append.mp hf with hf | hf
    · rw [hst.other (.inode (s.dentry f.1).inode k) hk (fun m _ he => ?_) a]
      · exact h.own f hf k hk hp a ha
      · unfold ptrOf at he
        split at he
        · exact hino f hf (PagePtr.inode.inj he).1
        · exact absurd he (by simp)
    · obtain rfl := List.mem_singleton.mp hf
      have hat := hst.at_ k hp a ha
      rwa [Nat.zero_add, ptrOf, if_pos hk] at hat
  · rw [lastWith_append] at hf
    by_cases hp : k < pagesOf data
    · rw [if_pos hp, Option.some.injEq] at hf
      subst hf
      have hat := hst.at_ k hp a ha
      rwa [Nat.zero_add, ptrOf, if_neg (by omega)] at hat
    · rw [if_neg hp] at hf
      rw [hst.other (.fmap (k - 12)) (show k - 12 < 16 by omega) (fun m hm he => ?_) a]
      · exact h.shared k hlo hhi f hf a ha
      · have hself : ptrOf (s.dentry d).inode k = .fmap (k - 12) := if_neg (by omega)
        have := ptrOf_injective (hself.trans he)
        omega

theorem StoreRun.inv (h : StoreRun files s) (h28 : ∀ f ∈ files, pagesOf f.2 ≤ 28) :
    StoreInv files s := by
  induction h with
  | start => exact storeInv_start
  | opened _ hc hok heq ih => exact (ih h28).opened hc hok heq
  | stored _ hd hnew _ hfree ih =>
    have hlast := h28 _ (List.mem_append.mpr (.inr List.mem_cons_self))
    have hbefore := ih fun f hf => h28 f (List.mem_append.mpr (.inl hf))
    exact (hbefore.stored hd hnew hlast (show FreePages _ (_ + 0) from hfree)).1

/-- What `kfs_read` finds. -/
theorem StoreInv.read (h : StoreInv files s) (hf : f ∈ files) (h28 : pagesOf f.2 ≤ 28)
    (hk : k < pagesOf f.2) (buf : KfsBuf) {a : Nat} (ha : a < 1024) :
    (kfsRead s f.1 k buf).2 a = wordsAt s (s.load (ptrOf (s.dentry f.1).inode k)) a := by
  have hne : f.2 ≠ [] := by
    intro he
    rw [he, pagesOf_nil] at hk
    omega
  have hpos := List.length_pos_iff.mpr hne
  have hsize := h.size f hf hne
  unfold pagesOf at hk h28
  have hin : ¬ ((s.inode (s.dentry f.1).inode).size = 0
      ∨ k > (s.inode (s.dentry f.1).inode).size / 4096) := by
    rw [hsize]
    omega
  have hpage : kfsPage s (s.dentry f.1).inode k = some (s.load (ptrOf (s.dentry f.1).inode k)) := by
    rw [kfsPage]
    simp only [if_neg hin]
    unfold ptrOf
    by_cases hlow : k < 12
    · rw [if_pos hlow, if_pos hlow, Kfs.load]
    · rw [if_neg hlow, if_neg hlow, if_pos (by rw [hsize]; omega), h.fmap, Nat.mul_zero,
        Nat.zero_add, Kfs.load]
  exact kfsRead_words hpage ha

/-- Files of up to 28 pages are read back when they do not differ on the pages they share. -/
theorem StoreInv.faithful_iff (h : StoreInv files s) (h28 : ∀ f ∈ files, pagesOf f.2 ≤ 28) :
    Faithful files s ↔ AgreeBehind files := by
  have hshared : ∀ f ∈ files, ∀ k, 12 ≤ k → k < pagesOf f.2 → ∃ l ∈ files, k < pagesOf l.2 ∧
      lastWith files k = some l ∧ ∀ buf a, a < 1024 → (kfsRead s f.1 k buf).2 a = chunk l.2 k a := by
    intro f hf k hlo hk
    obtain ⟨l, hl⟩ := exists_lastWith hf hk
    have hhi := h28 f hf
    refine ⟨l, (lastWith_spec hl).1, (lastWith_spec hl).2, hl, fun buf a ha => ?_⟩
    rw [h.read hf hhi hk buf ha, ptrOf, if_neg (by omega)]
    exact h.shared k hlo (by omega) l hl a ha
  constructor
  · intro hfaithful f hf g hg k hlo hkf hkg a ha
    obtain ⟨l, -, -, hl, hread⟩ := hshared f hf k hlo hkf
    obtain ⟨l', -, -, hl', hread'⟩ := hshared g hg k hlo hkg
    obtain rfl : l = l' := Option.some.inj (hl.symm.trans hl')
    rw [← hfaithful f hf k hkf (fun _ => 0) a ha, ← hfaithful g hg k hkg (fun _ => 0) a ha,
      hread _ a ha, hread' _ a ha]
  · intro hagree f hf k hk buf a ha
    by_cases hlow : k < 12
    · rw [h.read hf (h28 f hf) hk buf ha, ptrOf, if_pos hlow]
      exact h.own f hf k hlow hk a ha
    · obtain ⟨l, hl, hkl, -, hread⟩ := hshared f hf k (by omega) hk
      rw [hread buf a ha]
      exact hagree l hl f hf k (by omega) hkl hk a ha

/-- In every run over files of up to 28 pages these are read back exactly when no two of
them differ on a page from page 12 on. -/
theorem storeRun_faithful_iff (h : StoreRun files s) (h28 : ∀ f ∈ files, pagesOf f.2 ≤ 28) :
    Faithful files s ↔ AgreeBehind files :=
  (h.inv h28).faithful_iff h28

/-! ## Two files of thirteen pages -/

/-- The name `g`. -/
def nameG : CStr := ⟨[103], by decide⟩

/-- The dentries of `/f` and `/g` are made. -/
theorem exists_two_dentries :
    ∃ s, StoreRun [] s ∧ Allocated s 1 ∧ Allocated s 2 ∧ FreePages s 26 := by
  have hf : Permitted kfsStart (.openat 0 nameF) := ⟨kfsInv_start.top, by decide, fun _ => room_start⟩
  obtain ⟨s₁, heq₁, hinv₁⟩ := kfsInv_start.call hf
  have hbits₁ : (kfsDo kfsStart (.openat 0 nameF)).map (fun s =>
      (s.dentryMap.bmp.isSet 1, s.dentryMap.bmp.isSet 2, s.inodeMap.bmp.isSet 2))
        = some (true, false, false) := by decide +kernel
  rw [heq₁, Option.map_some, Option.some.injEq, Prod.mk.injEq, Prod.mk.injEq] at hbits₁
  obtain ⟨h1, h2, hi2⟩ := hbits₁
  have hg : Permitted s₁ (.openat 0 nameG) :=
    ⟨hinv₁.top, by decide, fun _ => ⟨⟨2, by decide, h2⟩, 2, by decide, hi2⟩⟩
  obtain ⟨s₂, heq₂, hinv₂⟩ := hinv₁.call hg
  have hbits₂ : ((kfsDo kfsStart (.openat 0 nameF)).bind fun s =>
      (kfsDo s (.openat 0 nameG)).map fun s => s.dentryMap.bmp.isSet 2) = some true := by
    decide +kernel
  rw [heq₁, Option.bind_some, heq₂, Option.map_some, Option.some.injEq] at hbits₂
  have hopen : ∀ name, KfsRequest.IsOpen (.openat 0 name) := fun _ => trivial
  have hkept := (hinv₁.callOpen (hopen nameG) hg heq₂).2
  have hrun₁ : StoreRun [] s₁ := .opened .start (hopen nameF) hf heq₁
  refine ⟨s₂, .opened hrun₁ (hopen nameG) hg heq₂,
    (hkept 1 ⟨by decide, h1⟩).1, ⟨by decide, hbits₂⟩, List.range' 26 26, List.nodup_range',
    by decide, fun p hp => ?_⟩
  have hmap : s₂.pageMap = kfsStart.pageMap :=
    (kfsDo_files (hopen nameG) heq₂).pageMap.trans (kfsDo_files (hopen nameF) heq₁).pageMap
  have hfree : ∀ p ∈ List.range' 26 26,
      p < kfsNpgDisk ∧ kfsStart.pageMap.bmp.isSet p = false := by decide
  rw [hmap]
  exact hfree p hp

/-- Twelve pages of zeros and a byte. -/
def thirteenPages (b : BitVec 8) : List (BitVec 8) := List.replicate (12 * 4096) 0 ++ [b]

theorem pagesOf_thirteenPages (b : BitVec 8) : pagesOf (thirteenPages b) = 13 := by
  rw [pagesOf, thirteenPages, List.length_append, List.length_replicate, List.length_singleton]

theorem chunk_thirteenPages (b : BitVec 8) : chunk (thirteenPages b) 12 0 = 0#24 ++ b := by
  have hlen : (List.replicate (12 * 4096) (0 : BitVec 8)).length = 4096 * 12 + 4 * 0 := by
    rw [List.length_replicate]
  have h0 : (thirteenPages b).getD (4096 * 12 + 4 * 0) 0 = b := by
    rw [thirteenPages, List.getD_eq_getElem?_getD, ← hlen, List.getElem?_concat_length]
    rfl
  have hbehind : ∀ n, 0 < n → (thirteenPages b).getD (4096 * 12 + 4 * 0 + n) 0 = 0 := fun n hn => by
    refine List.getD_eq_default _ _ ?_
    rw [thirteenPages, List.length_append, List.length_singleton, hlen]
    omega
  rw [chunk, Mem.readWord, h0, hbehind 1 (by decide), hbehind 2 (by decide), hbehind 3 (by decide)]
  rfl

/-- The file `/f` of thirteen pages is read back while it is alone. -/
theorem storeRun_faithful_iff_one : ∃ s, StoreRun [(1, thirteenPages 1)] s ∧
    Faithful [(1, thirteenPages 1)] s := by
  obtain ⟨s, hrun, h1, -, l, hnd, hlen, hl⟩ := exists_two_dentries
  have hpages := pagesOf_thirteenPages 1
  have hfree : FreePages s (pagesOf (thirteenPages 1)) := ⟨l, hnd, by omega, hl⟩
  have hrun' : StoreRun [(1, thirteenPages 1)] _ :=
    .stored hrun h1 List.not_mem_nil (by omega) hfree
  refine ⟨_, hrun', (storeRun_faithful_iff hrun' ?_).mpr ?_⟩
  · intro f hf
    rw [List.mem_singleton.mp hf, hpages]
    decide
  · intro f hf g hg k _ _ _ a _
    rw [List.mem_singleton.mp hf, List.mem_singleton.mp hg]

/-- The second of two such files changes the first. -/
theorem storeRun_loses_page : ¬ ∀ files s, StoreRun files s → Faithful files s := by
  intro hclaim
  obtain ⟨s, hrun, h1, h2, l, hnd, hlen, hl⟩ := exists_two_dentries
  have hp1 := pagesOf_thirteenPages 1
  have hp2 := pagesOf_thirteenPages 2
  have hinv := hrun.inv fun f hf => absurd hf List.not_mem_nil
  have hfree : FreePages s (pagesOf (thirteenPages 1) + 13) := ⟨l, hnd, by omega, hl⟩
  have hrun₁ : StoreRun [(1, thirteenPages 1)] _ :=
    .stored hrun h1 List.not_mem_nil (by omega) ⟨l, hnd, by omega, hl⟩
  obtain ⟨hinv₁, hfree₁, hall⟩ := hinv.stored h1 List.not_mem_nil (by omega) hfree
  generalize addNewFile s (thirteenPages 1) 1 = s₁ at hrun₁ hinv₁ hfree₁ hall
  have hnew : 2 ∉ ([(1, thirteenPages 1)] : List Stored).map Prod.fst := by
    rw [List.map_singleton, List.mem_singleton]
    decide
  have hfree₂ : FreePages s₁ (pagesOf (thirteenPages 2)) := by rwa [hp2]
  have hrun₂ := hrun₁.stored ((hall 2).mpr h2) hnew (by omega) hfree₂
  rw [← Nat.add_zero (pagesOf (thirteenPages 2))] at hfree₂
  have hinv₂ := (hinv₁.stored ((hall 2).mpr h2) hnew (by omega) hfree₂).1
  have h28 : ∀ f ∈ ([(1, thirteenPages 1)] ++ [(2, thirteenPages 2)] : List Stored),
      pagesOf f.2 ≤ 28 := by
    intro f hf
    rcases List.mem_append.mp hf with hf | hf
    · rw [List.mem_singleton.mp hf, hp1]
      decide
    · rw [List.mem_singleton.mp hf, hp2]
      decide
  have hagree := (hinv₂.faithful_iff h28).mp (hclaim _ _ hrun₂)
  have hsame := hagree (1, thirteenPages 1) (List.mem_append.mpr (.inl List.mem_cons_self))
    (2, thirteenPages 2) (List.mem_append.mpr (.inr List.mem_cons_self)) 12 (Nat.le_refl 12)
    (show 12 < pagesOf (thirteenPages 1) by omega) (show 12 < pagesOf (thirteenPages 2) by omega) 0
    (by decide)
  rw [chunk_thirteenPages, chunk_thirteenPages] at hsame
  exact absurd hsame (by decide)

end

end Ko6.Fs
