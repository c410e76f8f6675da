import Ko6.Common.Cstd
import Ko6.Lib.Bitmap

set_option autoImplicit false

/-!
# Fs: the tables of KFS

KFS keeps its names in 256 dentries, which are threaded as a tree by the 8-bit fields
`root`, `leaf` and `next`, and its files in inodes, whose pages beyond the twelfth are
listed in fmaps.  Each table has a bitmap.  The fields are numbers that are cut to
their width when they are written.
-/

namespace Ko6.Fs

open Ko6.Lib Ko6.Common

/-! ## Tables -/

/-- `KFS_MAX_NAME`. -/
def kfsMaxName : Nat := 28

/-- `KFS_MAX_DENTRY`, `KFS_MAX_INODE`, `KFS_MAX_FMAP`, `KFS_NPG_DISK`. -/
def kfsMaxDentry : Nat := 256
def kfsMaxInode : Nat := 256
def kfsMaxFmap : Nat := 2048
def kfsNpgDisk : Nat := 0x2000

/-- `NPGU`: the pages of the boot part and of the tables. -/
def npgu : Nat := 26

/-- A value in an 8-bit or a 16-bit field. -/
def u8 (x : Nat) : Nat := x % 2 ^ 8
def u16 (x : Nat) : Nat := x % 2 ^ 16

/-- `enum kfs_type_e`. -/
inductive KfsType where
  | dir
  | file
  | pipe
  | slink
  deriving DecidableEq

/-- `kfs_dentry_t`. -/
structure KfsDentry where
  root : Nat
  next : Nat
  leaf : Nat
  inode : Nat
  name : Nat → BitVec 8

/-- `kfs_inode_t`. -/
structure KfsInode where
  type : KfsType
  mode : BitVec 6
  size : Nat
  count : BitVec 2
  owner : BitVec 2
  mtime : BitVec 8
  page : Nat → Nat
  fmap : Nat

/-- A table with its bitmap: `bmp` and `cur` of the super block. -/
structure KfsBitmap where
  bmp : Bitmap
  cur : Nat

/-- The tables of KFS and the pages of the disk, as words.  The entry `i` of fmap `f`
is `fmaps (16 * f + i)`. -/
structure Kfs where
  dentryMap : KfsBitmap
  inodeMap : KfsBitmap
  fmapMap : KfsBitmap
  pageMap : KfsBitmap
  dentry : Nat → KfsDentry
  inode : Nat → KfsInode
  fmaps : Nat → Nat
  disk : Nat → Nat → BitVec 32
  offset : Nat → Nat

namespace Kfs

variable (s : Kfs) (d : Nat)

/-- Changes of one entry. -/
def setDentry (f : KfsDentry → KfsDentry) : Kfs :=
  { s with dentry := Function.update s.dentry d (f (s.dentry d)) }

def setInode (f : KfsInode → KfsInode) : Kfs :=
  { s with inode := Function.update s.inode d (f (s.inode d)) }

variable {s d} {f : KfsDentry → KfsDentry} {g : KfsInode → KfsInode} {x : Nat}

@[simp] theorem setDentry_dentry : (s.setDentry d f).dentry d = f (s.dentry d) :=
  Function.update_self ..

theorem setDentry_dentry_ne (h : x ≠ d) : (s.setDentry d f).dentry x = s.dentry x :=
  Function.update_of_ne h ..

/-- A field that is not changed. -/
theorem setDentry_field {β : Type} (field : KfsDentry → β) (h : ∀ e, field (f e) = field e) :
    field ((s.setDentry d f).dentry x) = field (s.dentry x) := by
  by_cases hx : x = d
  · rw [hx, setDentry_dentry, h]
  · rw [setDentry_dentry_ne hx]

@[simp] theorem setDentry_dentryMap : (s.setDentry d f).dentryMap = s.dentryMap := rfl
@[simp] theorem setDentry_inodeMap : (s.setDentry d f).inodeMap = s.inodeMap := rfl
@[simp] theorem setDentry_inode : (s.setDentry d f).inode = s.inode := rfl

@[simp] theorem setInode_inode : (s.setInode d g).inode d = g (s.inode d) :=
  Function.update_self ..

theorem setInode_inode_ne (h : x ≠ d) : (s.setInode d g).inode x = s.inode x :=
  Function.update_of_ne h ..

theorem setInode_field {β : Type} (field : KfsInode → β) (h : ∀ e, field (g e) = field e) :
    field ((s.setInode d g).inode x) = field (s.inode x) := by
  by_cases hx : x = d
  · rw [hx, setInode_inode, h]
  · rw [setInode_inode_ne hx]

@[simp] theorem setInode_dentryMap : (s.setInode d g).dentryMap = s.dentryMap := rfl
@[simp] theorem setInode_inodeMap : (s.setInode d g).inodeMap = s.inodeMap := rfl
@[simp] theorem setInode_dentry : (s.setInode d g).dentry = s.dentry := rfl

end Kfs

/-- `kfs_isdir`. -/
def kfsIsdir (s : Kfs) (dentry : Nat) : Bool := (s.inode (s.dentry dentry).inode).type = .dir

/-! ## Bitmaps -/

/-- `kfs_alloc_bitmap`: the bit, or 0; the search does not begin behind the end. -/
def kfsAllocBitmap (t : KfsBitmap) (max : Nat) : Nat × KfsBitmap :=
  match t.bmp.firstClear (max - t.cur) t.cur with
  | some i => (i, ⟨t.bmp.set i, i⟩)
  | none => (0, { t with cur := max })

/-- `kfs_free_bitmap`. -/
def kfsFreeBitmap (t : KfsBitmap) (bit : Nat) : KfsBitmap :=
  ⟨t.bmp.clear bit, if bit < t.cur then bit else t.cur⟩

/-! ## Names -/

/-- A byte of the table of dentries, of 32 bytes each. -/
def KfsDentry.byte (e : KfsDentry) : Nat → BitVec 8
  | 0 => BitVec.ofNat 8 e.root
  | 1 => BitVec.ofNat 8 e.next
  | 2 => BitVec.ofNat 8 e.leaf
  | 3 => BitVec.ofNat 8 e.inode
  | i + 4 => e.name i

/-- The bytes from the name of a dentry on; behind it comes the next dentry. -/
def kfsName (s : Kfs) (dentry i : Nat) : BitVec 8 :=
  (s.dentry (dentry + (i + 4) / 32)).byte ((i + 4) % 32)

/-- The characters of `src` and a NUL over the bytes `dest`. -/
def nameField (src : CStr) (dest : Nat → BitVec 8) (i : Nat) : BitVec 8 :=
  if i < strlen src then src.byte i else if i = strlen src then 0 else dest i

/-- `kfs_strcpy` into the name of a dentry.  The NUL of a name that fills the field is
written to the `root` of the next dentry. -/
def kfsStrcpyName (s : Kfs) (dentry : Nat) (src : CStr) : Kfs :=
  let s := s.setDentry dentry fun e => { e with name := nameField src e.name }
  if strlen src < kfsMaxName then s
  else s.setDentry (dentry + 1) fun e => { e with root := 0 }

/-- `kfs_strcmp` of the bytes `s1` and a string. -/
def kfsStrcmp (s1 : Nat → BitVec 8) : List (BitVec 8) → Nat → Int
  | [], i => (s1 i).toNat
  | c2 :: s2, i =>
    if s1 i ≠ 0 ∧ s1 i = c2 then kfsStrcmp s1 s2 (i + 1) else (s1 i).toNat - c2.toNat

/-- The room for a component in the buffer of `kfs_getname`. -/
def kfsMaxComponent : Nat := 31

/-- The characters before the first slash. -/
def nameOf (path : CStr) : CStr :=
  ⟨path.chars.takeWhile (· ≠ slash), fun c hc => path.nonzero c ((List.takeWhile_prefix _).subset hc)⟩

/-- A string without its first `n` characters. -/
def dropFirst (s : CStr) (n : Nat) : CStr :=
  ⟨s.chars.drop n, fun c hc => s.nonzero c (List.mem_of_mem_drop hc)⟩

/-- `kfs_getname` of the rest of a path: the next name, and the rest behind it. -/
def kfsGetname (next : CStr) : Option (CStr × CStr) :=
  if next.chars = [] then none
  else
    let name := nameOf next
    let rest := next.chars.drop (strlen name + 1)
    some (name, dropFirst next (strlen name + 1 + (rest.takeWhile (· = slash)).length))

/-! ## Dentries and inodes -/

/-- `kfs_alloc_dentry`. -/
def kfsAllocDentry (s : Kfs) (name : CStr) : Nat × Kfs :=
  let (new, t) := kfsAllocBitmap s.dentryMap kfsMaxDentry
  let s := { s with dentryMap := t }
  if new = 0 then (0, s) else (new, kfsStrcpyName s new name)

/-- The loop of `kfs_free_dentry` over the directory; `none` when it does not end. -/
def kfsFreeDentrySearch (s : Kfs) (dentry : Nat) : Nat → Nat → Nat → Option Nat
  | 0, _, _ => none
  | fuel + 1, curr, prev =>
    if curr ≠ dentry then kfsFreeDentrySearch s dentry fuel (s.dentry curr).next curr
    else some prev

/-- `kfs_free_dentry`.  A list of the directory has at most all the dentries.  The bit is
freed in the body of the loop that erases the dentry, each time with the same effect. -/
def kfsFreeDentry (s : Kfs) (dentry : Nat) : Option Kfs := do
  let root := (s.dentry dentry).root
  let prev ← kfsFreeDentrySearch s dentry kfsMaxDentry (s.dentry root).leaf 0
  let next := (s.dentry dentry).next
  let s :=
    if prev = 0 then s.setDentry root fun e => { e with leaf := next }
    else s.setDentry prev fun e => { e with next := next }
  let s := s.setDentry dentry fun _ => ⟨0, 0, 0, 0, fun _ => 0⟩
  some { s with dentryMap := kfsFreeBitmap s.dentryMap dentry }

/-- `kfs_alloc_inode`. -/
def kfsAllocInode (s : Kfs) (type : KfsType) : Nat × Kfs :=
  let (new, t) := kfsAllocBitmap s.inodeMap kfsMaxInode
  let s := { s with inodeMap := t }
  if new = 0 then (0, s)
  else (new, s.setInode new fun e => { e with type := type, mode := 0o77, count := 1 })

/-- `kfs_free_inode`. -/
def kfsFreeInode (s : Kfs) (inode : Nat) : Kfs :=
  let s := s.setInode inode fun _ => ⟨.dir, 0, 0, 0, 0, 0, fun _ => 0, 0⟩
  { s with inodeMap := kfsFreeBitmap s.inodeMap inode }

/-- `kfs_free_fmap`. -/
def kfsFreeFmap (s : Kfs) (fmap : Nat) : Kfs :=
  { s with
    fmaps := fun i => if i / 16 = fmap then 0 else s.fmaps i
    fmapMap := kfsFreeBitmap s.fmapMap fmap }

/-- `kfs_free_page`. -/
def kfsFreePage (s : Kfs) (page : Nat) : Kfs :=
  { s with pageMap := kfsFreeBitmap s.pageMap page }

/-! ## Open -/

/-- The loop of `kfs_openat` over the directory, at a leaf; `none` when it does not end. -/
def kfsFindLoop (s : Kfs) (name : CStr) : Nat → Nat → Option (Option Nat)
  | 0, _ => none
  | fuel + 1, leaf =>
    if kfsStrcmp (kfsName s leaf) name.chars 0 = 0 then some (some leaf)
    else if (s.dentry leaf).next ≠ 0 then kfsFindLoop s name fuel (s.dentry leaf).next
    else some none

/-- The leaf of a directory with this name. -/
def kfsFind (s : Kfs) (root : Nat) (name : CStr) : Option (Option Nat) :=
  if (s.dentry root).leaf ≠ 0 then kfsFindLoop s name kfsMaxDentry (s.dentry root).leaf
  else some none

/-- The part of `kfs_openat` that makes a leaf. -/
def kfsCreate (s : Kfs) (root : Nat) (name : CStr) : Nat × Kfs :=
  let (leaf, s) := kfsAllocDentry s name
  let (inode, s) := kfsAllocInode s .file
  let s := s.setDentry leaf fun e => { e with inode := u8 inode, leaf := 0, root := u8 root }
  let s := s.setDentry leaf fun e => { e with next := (s.dentry root).leaf }
  (leaf, s.setDentry root fun e => { e with leaf := u8 leaf })

/-- `kfs_openat`: the leaf and the tables. -/
def kfsOpenat (s : Kfs) (root : Nat) (name : CStr) : Option (Nat × Kfs) := do
  let found ← kfsFind s root name
  let s := s.setInode (s.dentry root).inode fun e => { e with type := .dir }
  match found with
  | some leaf => some (leaf, s)
  | none => some (kfsCreate s root name)

/-- The loop of `kfs_open`.  Each turn takes at least one character of `next`; a name
that is too long for the buffer is a fault. -/
def kfsOpenLoop : Nat → CStr → Nat → Kfs → Option (Nat × Kfs)
  | 0, _, dentry, s => some (dentry, s)
  | fuel + 1, next, dentry, s =>
    match kfsGetname next with
    | none => some (dentry, s)
    | some (name, next) =>
      if strlen name ≤ kfsMaxComponent then do
        let (dentry, s) ← kfsOpenat s dentry name
        kfsOpenLoop fuel next dentry s
      else none

/-- `kfs_open`: the dentry, and `NULL` for a path that is not absolute. -/
def kfsOpen (s : Kfs) (pathname : CStr) : Option (Option Nat × Kfs) :=
  if pathname.byte 0 ≠ slash then some (none, s)
  else
    match kfsGetname pathname with
    | none => some (none, s)
    | some (_, next) => do
      let (dentry, s) ← kfsOpenLoop (strlen next) next 0 s
      some (some dentry, { s with offset := Function.update s.offset (s.dentry dentry).inode 0 })

/-! ## Unlink -/

/-- The loop of `kfs_unlink` over the pages that are left, from page `p` on. -/
def kfsUnlinkPages (inode size fmap1 : Nat) : Nat → Nat → Nat → Nat → Kfs → Kfs
  | 0, _, _, _, s => s
  | n + 1, p, fmap2, freemap, s =>
    let (page, fmap2, freemap) :=
      if p < 12 then ((s.inode inode).page p, fmap2, freemap)
      else if size ≤ 28 * 4096 then
        (s.fmaps (16 * fmap1 + (p - 12)), fmap2, if p = size / 4096 then 1 else freemap)
      else
        let fmap2 := s.fmaps (16 * fmap1 + (p - 12) / 16)
        let freemap := if (p - 12) % 16 = 15 then 2 else freemap
        (s.fmaps (16 * fmap2 + (p - 12) % 16), fmap2, if p = size / 4096 then 3 else freemap)
    let s := kfsFreePage s page
    let s := if freemap % 2 = 1 then kfsFreeFmap s fmap1 else s
    let s := if freemap / 2 % 2 = 1 then kfsFreeFmap s fmap2 else s
    kfsUnlinkPages inode size fmap1 n (p + 1) fmap2 freemap s

/-- `kfs_unlink`; the dentry of a path that is not absolute is outside the table. -/
def kfsUnlink (s : Kfs) (name : CStr) : Option Kfs := do
  let (dentry, s) ← kfsOpen s name
  let dentry ← dentry
  let inode := (s.dentry dentry).inode
  let size := (s.inode inode).size
  let fmap1 := (s.inode inode).fmap
  let s ← kfsFreeDentry s dentry
  let count := (s.inode inode).count
  let s := s.setInode inode fun e => { e with count := e.count - 1 }
  if count = 0 then
    some (kfsFreeInode (kfsUnlinkPages inode size fmap1 ((size + 4095) / 4096) 0 0 0 s) inode)
  else some s

/-! ## The walk -/

/-- `kfs_readdir` without a buffer; `none` is -1. -/
def kfsReaddir (s : Kfs) (root leaf : Nat) : Option Nat :=
  if !kfsIsdir s root then none
  else if leaf = root then some (s.dentry root).leaf
  else if (s.dentry leaf).root ≠ root then none
  else some (s.dentry leaf).next

/-- A call of the callback. -/
structure KfsCall where
  dentry : Nat
  depth : Nat
  pos : Nat

/-- `kfs_tree_cb_r` from its loop on, at a leaf: the calls and their number.  `none`
when the fuel runs out or the loop leaves the table. -/
def kfsTreeCbR (s : Kfs) : Nat → Nat → Nat → Nat → Nat → Option (List KfsCall × Nat)
  | 0, _, _, _, _ => none
  | fuel + 1, root, depth, pos, leaf =>
    if leaf = 0 then some ([], 0)
    else
      -- the directory of the leaf, when it is one
      let inner :=
        if kfsIsdir s leaf then
          (kfsReaddir s leaf leaf).elim (some ([], 0)) fun first =>
            kfsTreeCbR s fuel leaf (depth + 1) 0 first
        else some ([], 0)
      inner.bind fun (calls, n) =>
        (kfsReaddir s root leaf).bind fun next =>
          (kfsTreeCbR s fuel root depth (pos + 1) next).map fun (rest, k) =>
            (⟨leaf, depth, pos⟩ :: (calls ++ rest), 1 + n + k)

/-- `kfs_tree_cb`. -/
def kfsTreeCb (s : Kfs) (fuel root : Nat) : Option (List KfsCall × Nat) :=
  if !kfsIsdir s root then some ([⟨root, 0, 0⟩], 1)
  else
    match kfsReaddir s root root with
    | none => some ([⟨root, 0, 0⟩], 1 + 0)
    | some leaf =>
      (kfsTreeCbR s fuel root 1 0 leaf).map fun r => (⟨root, 0, 0⟩ :: r.1, 1 + r.2)

/-! ## The start -/

/-- The tables before the first call. -/
def kfsStart : Kfs where
  dentryMap := ⟨Bitmap.set (fun _ => 0) 0, 1⟩
  inodeMap := ⟨Bitmap.set (fun _ => 0) 0, 1⟩
  fmapMap := ⟨Bitmap.set (fun _ => 0) 0, 1⟩
  pageMap := ⟨fun i => if i ≤ 2 then 0xFF else if i = 3 then 0x03 else 0, npgu⟩
  dentry := fun _ => ⟨0, 0, 0, 0, fun _ => 0⟩
  inode := fun i => ⟨.dir, if i = 0 then 0o77 else 0, 0, 0, 0, 0, fun _ => 0, 0⟩
  fmaps := fun _ => 0
  disk := fun _ _ => 0
  offset := fun _ => 0

end Ko6.Fs
