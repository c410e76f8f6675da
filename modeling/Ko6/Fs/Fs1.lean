import Ko6.Fs.Resolve

set_option autoImplicit false

/-!
# Fs: inodes and open files on fs1

An inode is counted once for being in memory, and once more by each user.
`fs1_lookup` makes an inode with one reference and takes another for its caller,
`vfs_open` takes one for the file, and `vfs_close` gives one back.
`openRun_exact_iff` says of which runs the count comes out as the presence in memory
and the open files.
-/

namespace Ko6.Fs

open Ko6.Lib Ko6.Common Ko6.Kernel

/-! ## Model -/

/-- `FS1_MAX_FILES`, `FS1_NAME_LEN`. -/
def fs1MaxFiles : Nat := 128
def fs1NameLen : Nat := 24

/-- `BLOCK_SIZE`. -/
def blockSize : BitVec 32 := 4096

/-- `S_IFREG`, `S_IFDIR`. -/
def sIfreg : BitVec 32 := 0x8000
def sIfdir : BitVec 32 := 0x4000

/-- `S_IROTH`, `S_IXOTH`, `S_IRUSR`, `S_IXUSR`. -/
def sIroth : BitVec 32 := 0x0004
def sIxoth : BitVec 32 := 0x0001
def sIrusr : BitVec 32 := 0x0100
def sIxusr : BitVec 32 := 0x0040

/-- `fs1_inode_t`: the metadata of a file. -/
structure Fs1Inode where
  name : Vector (BitVec 8) fs1NameLen
  lba : BitVec 32
  size : BitVec 32

/-- The bytes of the name field. -/
def Fs1Inode.nameByte (e : Fs1Inode) (i : Nat) : BitVec 8 := e.name.toList.getD i 0

/-- `fs1_volume_t`; the number of entries is `entry_count`. -/
structure Fs1Volume where
  entries : Vector Fs1Inode fs1MaxFiles
  minor : BitVec 32

/-- `vfs_inode_t`.  A reference is held by a file in memory or by a lookup, so that
`refcount` does not wrap; `data` is the entry in the locked metadata page. -/
structure VfsInode where
  sb : SbPtr
  ino : Nat
  size : BitVec 32
  mode : BitVec 32
  refcount : Nat
  flags : BitVec 32
  data : Option Fs1Inode

/-- `vfs_file_t`. -/
structure VfsFile where
  inode : InodePtr
  offset : BitVec 32
  deriving DecidableEq

/-- The address of a file. -/
abbrev FilePtr : Type := Nat

/-- The inodes and the open files, in the order of their allocation, the list
`Vfs_icache_lru` and the number of calls of `kmalloc`. -/
structure Vfs where
  inodes : List VfsInode
  files : List (Option VfsFile)
  icacheLru : List InodePtr
  kmallocs : Nat

/-- `vfs_inode_get`. -/
def vfsInodeGet (inode : InodePtr) (st : Vfs) : Vfs :=
  { st with inodes := st.inodes.modify inode fun i => { i with refcount := i.refcount + 1 } }

/-- `vfs_inode_release`; `none` is the panic. -/
def vfsInodeRelease (inode : InodePtr) (st : Vfs) : Option Vfs := do
  let i ← st.inodes[inode]?
  if i.refcount = 0 then none
  else some { st with
    inodes := st.inodes.modify inode fun i => { i with refcount := i.refcount - 1 }
    icacheLru := if i.refcount - 1 = 0 then inode :: st.icacheLru else st.icacheLru }

/-- `vfs_inode_lookup`: there is no inode cache. -/
def vfsInodeLookup (_sb : SbPtr) (_ino : Nat) : Option InodePtr := none

section
variable (room : Nat → Bool) (vols : SbPtr → Fs1Volume) (roots : SbPtr → Option InodePtr)

/-- `vfs_inode_create`, when the calls of `kmalloc` that find room are given. -/
def vfsInodeCreate (sb : SbPtr) (ino : Nat) (size mode : BitVec 32) (data : Option Fs1Inode)
    (st : Vfs) : Option InodePtr × Vfs :=
  if room st.kmallocs then
    (some st.inodes.length,
      { st with
        inodes := st.inodes ++ [⟨sb, ino, size, mode, 1, 0, data⟩]
        kmallocs := st.kmallocs + 1 })
  else (none, { st with kmallocs := st.kmallocs + 1 })

/-- `fs1_retrieve_inode`. -/
def fs1RetrieveInode (sb : SbPtr) (ino : Nat) : Option Fs1Inode := (vols sb).entries[ino]?

/-- `fs1_new_inode`. -/
def fs1NewInode (sb : SbPtr) (ino : Nat) (st : Vfs) : Option InodePtr × Vfs :=
  match fs1RetrieveInode vols sb ino with
  | none => (none, st)
  | some entry =>
    let size := if ino ≠ 0 then entry.size else blockSize
    let mode := if ino ≠ 0 then sIfreg else sIfdir
    let mode := mode ||| (sIroth ||| sIxoth ||| sIrusr ||| sIxusr)
    let data := if ino ≠ 0 then some entry else none
    vfsInodeCreate room sb ino size mode data st

/-- `fs1_lookup`. -/
def fs1Lookup (sb : SbPtr) (_dir : Option InodePtr) (name : List (BitVec 8)) (st : Vfs) :
    Option InodePtr × Vfs :=
  match (vols sb).entries.toList.findIdx?
      fun e => strncmp (fun i => name.getD i 0) e.nameByte fs1NameLen = 0 with
  | none => (none, st)
  | some i =>
    match vfsInodeLookup sb i with
    | some inode => (some inode, vfsInodeGet inode st)
    | none =>
      match fs1NewInode room vols sb i st with
      | (some inode, st) => (some inode, vfsInodeGet inode st)
      | (none, st) => (none, st)

/-- The mounted fs1 volumes. -/
def fs1Filesystems : Filesystems Vfs where
  root := roots
  inodeSb := fun st inode => (st.inodes[inode]?).elim 0 VfsInode.sb
  lookup := fs1Lookup room vols

/-- `vfs_open` once the path is resolved. -/
def vfsOpenInode (inode : InodePtr) (st : Vfs) : Option (Option FilePtr × Vfs) :=
  if room st.kmallocs then
    let st := vfsInodeGet inode { st with kmallocs := st.kmallocs + 1 }
    some (some st.files.length, { st with files := st.files ++ [some ⟨inode, 0⟩] })
  else
    (vfsInodeRelease inode { st with kmallocs := st.kmallocs + 1 }).map fun st => (none, st)

/-- `vfs_open`. -/
def vfsOpen (s : Mounts) (lim buf : Nat) (m : Mem) (base : Option InodePtr) (path : CStr)
    (st : Vfs) : Option (Option FilePtr × Vfs) := do
  let (inode, st) ← vfsResolve s (fs1Filesystems room vols roots) lim buf m base path st
  match inode with
  | none => some (none, st)
  | some inode => vfsOpenInode room inode st

/-- `vfs_close`. -/
def vfsClose (file : FilePtr) (st : Vfs) : Option Vfs := do
  let f ← (st.files[file]?).join
  let st ← vfsInodeRelease f.inode st
  some { st with files := st.files.set file none }

/-! ## Runs of opens and closes -/

/-- Opens and closes in any order, from a state in which the volumes are mounted.
The inodes for which `vfs_open` found no room for the file are kept. -/
inductive OpenRun (s : Mounts) (start : Vfs) : Vfs → List InodePtr → Prop where
  | start : OpenRun s start start []
  | opened {st st' : Vfs} {failed : List InodePtr} {lim buf : Nat} {m : Mem}
      {base : Option InodePtr} {path : CStr} {file : FilePtr} : OpenRun s start st failed →
      (∀ b, base = some b → b < st.inodes.length) →
      vfsOpen room vols roots s lim buf m base path st = some (some file, st') →
      OpenRun s start st' failed
  | notFound {st st' : Vfs} {failed : List InodePtr} {lim buf : Nat} {m : Mem}
      {base : Option InodePtr} {path : CStr} : OpenRun s start st failed →
      (∀ b, base = some b → b < st.inodes.length) →
      vfsResolve s (fs1Filesystems room vols roots) lim buf m base path st = some (none, st') →
      vfsOpen room vols roots s lim buf m base path st = some (none, st') →
      OpenRun s start st' failed
  | noRoom {st st₁ st' : Vfs} {failed : List InodePtr} {lim buf : Nat} {m : Mem}
      {base : Option InodePtr} {path : CStr} {inode : InodePtr} : OpenRun s start st failed →
      (∀ b, base = some b → b < st.inodes.length) →
      vfsResolve s (fs1Filesystems room vols roots) lim buf m base path st
        = some (some inode, st₁) →
      vfsOpen room vols roots s lim buf m base path st = some (none, st') →
      OpenRun s start st' (inode :: failed)
  | closed {st st' : Vfs} {failed : List InodePtr} {file : FilePtr} : OpenRun s start st failed →
      vfsClose file st = some st' → OpenRun s start st' failed

end

/-- The files that are open on an inode. -/
def openOn (st : Vfs) (inode : InodePtr) : Nat :=
  st.files.countP fun f => f.any fun f => f.inode = inode

/-- The inodes made since `start` are counted once for being in memory and once for
each open file. -/
def RefcountsExact (start st : Vfs) : Prop :=
  ∀ inode i, start.inodes.length ≤ inode → st.inodes[inode]? = some i →
    i.refcount = 1 + openOn st inode

/-- The state after the mounts: the roots are in memory and no file is open. -/
structure FsMounted (roots : SbPtr → Option InodePtr) (start : Vfs) : Prop where
  roots_lt : ∀ sb r, roots sb = some r → r < start.inodes.length
  closed : start.files = []

/-- Every reference of an inode made since `start` is the one of its creation, the one
of its lookup or the one of an open file; an open without room has given one back. -/
structure OpenInv (start st : Vfs) (failed : List InodePtr) : Prop where
  grown : start.inodes.length ≤ st.inodes.length
  files_lt : ∀ f, some f ∈ st.files → f.inode < st.inodes.length
  failed_lt : ∀ inode ∈ failed, inode < st.inodes.length
  count : ∀ inode i, start.inodes.length ≤ inode → st.inodes[inode]? = some i →
    i.refcount + failed.count inode = 2 + openOn st inode

section
variable {room : Nat → Bool} {vols : SbPtr → Fs1Volume} {roots : SbPtr → Option InodePtr}
  {s : Mounts} {start st st' : Vfs} {failed : List InodePtr} {inode : InodePtr}

/-! ## What each operation does -/

theorem modify_append_last {α : Type} (l : List α) (a : α) (f : α → α) :
    (l ++ [a]).modify l.length f = l ++ [f a] := by
  induction l with
  | nil => rfl
  | cons b l ih => rw [List.cons_append, List.length_cons, List.modify_succ_cons, ih]; rfl

/-- `fs1_lookup` finds nothing, or makes an inode with two references. -/
theorem fs1Lookup_cases (room : Nat → Bool) (vols : SbPtr → Fs1Volume) (sb : SbPtr)
    (dir : Option InodePtr) (name : List (BitVec 8)) (st : Vfs) :
    (∃ st', fs1Lookup room vols sb dir name st = (none, st') ∧ st'.inodes = st.inodes ∧
      st'.files = st.files) ∨
    ∃ st' i, fs1Lookup room vols sb dir name st = (some st.inodes.length, st') ∧
      st'.inodes = st.inodes ++ [i] ∧ i.refcount = 2 ∧ st'.files = st.files := by
  unfold fs1Lookup vfsInodeLookup
  cases (vols sb).entries.toList.findIdx?
      fun e => strncmp (fun i => name.getD i 0) e.nameByte fs1NameLen = 0 with
  | none => exact .inl ⟨st, rfl, rfl, rfl⟩
  | some ino =>
    simp only [fs1NewInode]
    cases fs1RetrieveInode vols sb ino with
    | none => exact .inl ⟨st, rfl, rfl, rfl⟩
    | some entry =>
      simp only [vfsInodeCreate]
      by_cases hroom : room st.kmallocs = true
      · rw [if_pos hroom]
        refine .inr ⟨_, _, rfl, modify_append_last st.inodes _ _, rfl, rfl⟩
      · rw [if_neg hroom]
        exact .inl ⟨_, rfl, rfl, rfl⟩

/-- `vfs_open` behind the resolution: a new file with a reference, or a reference
given back. -/
theorem vfsOpenInode_cases {res : Option FilePtr} (h : vfsOpenInode room inode st = some (res, st')) :
    (∃ file, res = some file ∧ st'.files = st.files ++ [some ⟨inode, 0⟩] ∧
      st'.inodes = st.inodes.modify inode fun i => { i with refcount := i.refcount + 1 }) ∨
    (res = none ∧ st'.files = st.files ∧ (∃ i, st.inodes[inode]? = some i ∧ i.refcount ≠ 0) ∧
      st'.inodes = st.inodes.modify inode fun i => { i with refcount := i.refcount - 1 }) := by
  unfold vfsOpenInode at h
  by_cases hroom : room st.kmallocs = true
  · rw [if_pos hroom, Option.some.injEq, Prod.mk.injEq] at h
    rw [← h.1, ← h.2]
    exact .inl ⟨_, rfl, rfl, rfl⟩
  · rw [if_neg hroom] at h
    obtain ⟨st₁, hrelease, heq⟩ := Option.map_eq_some_iff.mp h
    obtain ⟨i, hi, hst₁⟩ := Option.bind_eq_some_iff.mp hrelease
    rw [Prod.mk.injEq] at heq
    by_cases hzero : i.refcount = 0
    · rw [if_pos hzero] at hst₁
      exact absurd hst₁ (by simp)
    · rw [if_neg hzero, Option.some.injEq] at hst₁
      rw [← heq.1, ← heq.2, ← hst₁]
      exact .inr ⟨rfl, rfl, ⟨i, hi, hzero⟩, rfl⟩

/-- `vfs_close` frees an open file and gives its reference back. -/
theorem vfsClose_cases {file : FilePtr} (h : vfsClose file st = some st') :
    ∃ f, st.files[file]? = some (some f) ∧ st'.files = st.files.set file none ∧
      (∃ i, st.inodes[f.inode]? = some i ∧ i.refcount ≠ 0) ∧
      st'.inodes = st.inodes.modify f.inode fun i => { i with refcount := i.refcount - 1 } := by
  obtain ⟨f, hf, h⟩ := Option.bind_eq_some_iff.mp h
  obtain ⟨st₁, hrelease, heq⟩ := Option.bind_eq_some_iff.mp h
  obtain ⟨i, hi, hst₁⟩ := Option.bind_eq_some_iff.mp hrelease
  rw [Option.some.injEq] at heq
  by_cases hzero : i.refcount = 0
  · rw [if_pos hzero] at hst₁
    exact absurd hst₁ (by simp)
  · rw [if_neg hzero, Option.some.injEq] at hst₁
    rw [← heq, ← hst₁]
    exact ⟨f, Option.join_eq_some_iff.mp hf, rfl, ⟨i, hi, hzero⟩, rfl⟩

/-! ## The references -/

theorem openOn_of_files (h : st'.files = st.files) (inode : InodePtr) :
    openOn st' inode = openOn st inode := by
  rw [openOn, openOn, h]

/-- No file is open on an inode that is not in memory yet. -/
theorem OpenInv.openOn_new (h : OpenInv start st failed) (hnew : st.inodes.length ≤ inode) :
    openOn st inode = 0 := by
  refine List.countP_eq_zero.mpr fun f hf => ?_
  cases f with
  | none => exact Bool.false_ne_true
  | some f =>
    have hne : f.inode ≠ inode := by
      rintro rfl
      exact absurd (h.files_lt f hf) (Nat.not_lt.mpr hnew)
    simpa using hne

theorem OpenInv.lookup (h : OpenInv start st failed) (sb : SbPtr) (dir : Option InodePtr)
    (name : List (BitVec 8)) :
    OpenInv start (fs1Lookup room vols sb dir name st).2 failed ∧
      ∀ i, (fs1Lookup room vols sb dir name st).1 = some i →
        i < (fs1Lookup room vols sb dir name st).2.inodes.length := by
  rcases fs1Lookup_cases room vols sb dir name st with
    ⟨st', heq, hinodes, hfiles⟩ | ⟨st', i, heq, hinodes, href, hfiles⟩
  · rw [heq]
    refine ⟨⟨?_, ?_, ?_, ?_⟩, fun i hi => absurd hi (by simp)⟩
    · rw [hinodes]
      exact h.grown
    · rw [hinodes, hfiles]
      exact h.files_lt
    · rw [hinodes]
      exact h.failed_lt
    · intro inode i hge hi
      rw [hinodes] at hi
      rw [openOn_of_files hfiles]
      exact h.count inode i hge hi
  · have hlen : st'.inodes.length = st.inodes.length + 1 := by
      rw [hinodes, List.length_append, List.length_singleton]
    have hinv : OpenInv start st' failed := by
      refine ⟨Nat.le_trans h.grown (by omega), fun f hf => ?_, fun inode hmem => ?_, ?_⟩
      · rw [hfiles] at hf
        rw [hlen]
        exact Nat.lt_succ_of_lt (h.files_lt f hf)
      · rw [hlen]
        exact Nat.lt_succ_of_lt (h.failed_lt inode hmem)
      · intro inode i' hge hi'
        rw [openOn_of_files hfiles]
        rw [hinodes] at hi'
        by_cases hold : inode < st.inodes.length
        · rw [List.getElem?_append_left hold] at hi'
          exact h.count inode i' hge hi'
        · -- the new inode
          have hnotin : inode ∉ failed := fun hmem => hold (h.failed_lt inode hmem)
          have hlast : inode = st.inodes.length := by
            have := (List.getElem?_eq_some_iff.mp hi').1
            rw [← hinodes, hlen] at this
            omega
          rw [hlast, List.getElem?_append_right (Nat.le_refl _), Nat.sub_self,
            List.getElem?_cons_zero, Option.some.injEq] at hi'
          rw [← hi', href, List.count_eq_zero.mpr hnotin, h.openOn_new (by omega)]
    rw [heq]
    refine ⟨hinv, fun j hj => ?_⟩
    have hj' : st.inodes.length = j := Option.some.inj hj
    rw [hlen, ← hj']
    exact Nat.lt_succ_self _

theorem OpenInv.resolve {lim buf : Nat} {m : Mem} {base : Option InodePtr} {path : CStr}
    {r : Option InodePtr × Vfs} (hroots : FsMounted roots start) (h : OpenInv start st failed)
    (hbase : ∀ b, base = some b → b < st.inodes.length)
    (hres : vfsResolve s (fs1Filesystems room vols roots) lim buf m base path st = some r) :
    OpenInv start r.2 failed ∧ ∀ i, r.1 = some i → i < r.2.inodes.length :=
  vfsResolve_keeps (P := fun st => OpenInv start st failed) (V := fun st i => i < st.inodes.length)
    (fun _ sb r h hr => Nat.lt_of_lt_of_le (hroots.roots_lt sb r hr) h.grown)
    (fun _ sb dir name h => h.lookup sb dir name) h hbase hres

/-- A new file and a reference on its inode. -/
theorem OpenInv.opened (h : OpenInv start st failed) (hin : inode < st.inodes.length)
    (hfiles : st'.files = st.files ++ [some ⟨inode, 0⟩])
    (hinodes : st'.inodes = st.inodes.modify inode fun i => { i with refcount := i.refcount + 1 }) :
    OpenInv start st' failed := by
  have hlen : st'.inodes.length = st.inodes.length := by rw [hinodes, List.length_modify]
  have hopen : ∀ j, openOn st' j = openOn st j + if inode = j then 1 else 0 := by
    intro j
    rw [openOn, hfiles, List.countP_append, ← openOn]
    simp [List.countP_cons]
  refine ⟨hlen ▸ h.grown, fun f hf => ?_, hlen ▸ h.failed_lt, fun j i hge hi => ?_⟩
  · rw [hlen]
    rw [hfiles] at hf
    rcases List.mem_append.mp hf with hf | hf
    · exact h.files_lt f hf
    · rw [List.mem_singleton, Option.some.injEq] at hf
      rw [hf]
      exact hin
  · rw [hinodes, List.getElem?_modify] at hi
    obtain ⟨i₀, hi₀, rfl⟩ := Option.map_eq_some_iff.mp hi
    have hcount := h.count j i₀ hge hi₀
    rw [hopen j]
    by_cases hj : inode = j
    · rw [if_pos hj, if_pos hj]
      simp only
      omega
    · rw [if_neg hj, if_neg hj]
      exact hcount

/-- An inode that gives a reference back, for an open without room or a file that is
closed. -/
theorem OpenInv.released {failed' : List InodePtr} (h : OpenInv start st failed)
    (href : ∃ i, st.inodes[inode]? = some i ∧ i.refcount ≠ 0)
    (hinodes : st'.inodes = st.inodes.modify inode fun i => { i with refcount := i.refcount - 1 })
    (hfiles : ∀ f, some f ∈ st'.files → some f ∈ st.files)
    (hfailed : ∀ j ∈ failed', j = inode ∨ j ∈ failed)
    (hcount : ∀ j, failed'.count j + openOn st j
      = failed.count j + openOn st' j + if inode = j then 1 else 0) :
    OpenInv start st' failed' := by
  have hlen : st'.inodes.length = st.inodes.length := by rw [hinodes, List.length_modify]
  obtain ⟨k, hk, hpos⟩ := href
  refine ⟨hlen ▸ h.grown, fun f hf => hlen ▸ h.files_lt f (hfiles f hf), fun j hj => ?_,
    fun j i hge hi => ?_⟩
  · rw [hlen]
    rcases hfailed j hj with rfl | hj
    · exact (List.getElem?_eq_some_iff.mp hk).1
    · exact h.failed_lt j hj
  · rw [hinodes, List.getElem?_modify] at hi
    obtain ⟨i₀, hi₀, rfl⟩ := Option.map_eq_some_iff.mp hi
    have hcount₀ := h.count j i₀ hge hi₀
    have hj := hcount j
    by_cases hj' : inode = j
    · rw [if_pos hj'] at hj ⊢
      rw [hj', hi₀, Option.some.injEq] at hk
      rw [← hk] at hpos
      simp only
      omega
    · rw [if_neg hj'] at hj ⊢
      omega

/-- What a run keeps. -/
theorem OpenRun.inv (hroots : FsMounted roots start)
    (h : OpenRun room vols roots s start st failed) : OpenInv start st failed := by
  induction h with
  | start =>
    refine ⟨Nat.le_refl _, fun f hf => ?_, fun j hj => absurd hj List.not_mem_nil,
      fun j i hge hi => ?_⟩
    · rw [hroots.closed] at hf
      exact absurd hf List.not_mem_nil
    · have := (List.getElem?_eq_some_iff.mp hi).1
      omega
  | opened _ hbase hopen ih =>
    obtain ⟨⟨inode, st₁⟩, hres, hopen⟩ := Option.bind_eq_some_iff.mp hopen
    obtain ⟨hinv, hlt⟩ := ih.resolve hroots hbase hres
    cases inode with
    | none => exact absurd hopen (by simp)
    | some inode =>
      rcases vfsOpenInode_cases hopen with ⟨file, -, hfiles, hinodes⟩ | ⟨heq, -⟩
      · exact hinv.opened (hlt inode rfl) hfiles hinodes
      · exact absurd heq (by simp)
  | notFound _ hbase hres _ ih => exact (ih.resolve hroots hbase hres).1
  | @noRoom st st₁ st' failed _ _ _ _ _ inode _ hbase hres hopen ih =>
    obtain ⟨hinv, -⟩ := ih.resolve hroots hbase hres
    rw [vfsOpen, hres, Option.bind_eq_bind, Option.bind_some] at hopen
    rcases vfsOpenInode_cases hopen with ⟨file, heq, -⟩ | ⟨-, hfiles, href, hinodes⟩
    · exact absurd heq (by simp)
    · refine hinv.released href hinodes (fun f hf => hfiles ▸ hf) (fun j hj => ?_) fun j => ?_
      · exact List.mem_cons.mp hj
      · rw [openOn_of_files hfiles, List.count_cons]
        simp only [beq_iff_eq]
        omega
  | @closed st st' failed file _ hclose ih =>
    obtain ⟨f, hf, hfiles, href, hinodes⟩ := vfsClose_cases hclose
    obtain ⟨hlt, hget⟩ := List.getElem?_eq_some_iff.mp hf
    refine ih.released href hinodes (fun f' hf' => ?_) (fun j hj => .inr hj) fun j => ?_
    · rw [hfiles] at hf'
      rcases List.mem_or_eq_of_mem_set hf' with hmem | heq
      · exact hmem
      · exact absurd heq (by simp)
    · have hpos : 0 < st.files.countP (fun f => f.any fun f => f.inode = j) ∨ f.inode ≠ j := by
        by_cases hj : f.inode = j
        · refine .inl (List.countP_pos_iff.mpr ⟨some f, List.mem_of_getElem? hf, ?_⟩)
          simpa using hj
        · exact .inr hj
      rw [openOn, openOn, hfiles, List.countP_set hlt, hget]
      simp only [Option.any_some, decide_eq_true_eq, Option.any_none, Bool.false_eq_true,
        if_false, Nat.add_zero]
      by_cases hj : f.inode = j
      · rw [if_pos hj]
        rw [or_iff_left (not_not.mpr hj)] at hpos
        omega
      · rw [if_neg hj]
        omega

/-- The counts are right where the reference of the lookup has been given back. -/
theorem OpenInv.exact_iff (h : OpenInv start st failed) :
    RefcountsExact start st ↔ ∀ inode, start.inodes.length ≤ inode → inode < st.inodes.length →
      failed.count inode = 1 := by
  constructor
  · intro hexact inode hge hlt
    have hget := List.getElem?_eq_getElem hlt
    have hcount := h.count inode _ hge hget
    have href := hexact inode _ hge hget
    omega
  · intro hall inode i hge hi
    have hcount := h.count inode i hge hi
    have hone := hall inode hge (List.getElem?_eq_some_iff.mp hi).1
    omega

/-- When every open finds room for its file, the counts are right as long as no inode
is made. -/
theorem OpenRun.exact_iff_none_made (hroots : FsMounted roots start)
    (h : OpenRun room vols roots s start st []) :
    RefcountsExact start st ↔ st.inodes.length = start.inodes.length := by
  have hinv := h.inv hroots
  have hgrown := hinv.grown
  rw [hinv.exact_iff]
  constructor
  · intro hall
    by_contra hne
    have hone := hall start.inodes.length (Nat.le_refl _) (by omega)
    rw [List.count_nil] at hone
    omega
  · intro hlen inode hge hlt
    omega

/-- In every run: the counts are right exactly when each inode that was made has given
back the reference of its lookup, which only an open without room for the file does. -/
theorem openRun_exact_iff (hroots : FsMounted roots start)
    (h : OpenRun room vols roots s start st failed) :
    RefcountsExact start st ↔ ∀ inode, start.inodes.length ≤ inode → inode < st.inodes.length →
      failed.count inode = 1 :=
  (h.inv hroots).exact_iff

end

/-! ## One file, opened -/

/-- A volume with the file `f` of 5000 bytes behind the directory block. -/
def fVolume : Fs1Volume where
  entries := (Vector.replicate fs1MaxFiles ⟨Vector.replicate fs1NameLen 0, 0, 0⟩).set 1
    ⟨(Vector.replicate fs1NameLen 0).set 0 102, 1, 5000⟩ (by decide)
  minor := 0

/-- The inode of `f` on the device. -/
def fEntry : Fs1Inode := fVolume.entries[1]

/-- Its root is in memory. -/
def fStart : Vfs := (fs1NewInode (fun _ => true) (fun _ => fVolume) 0 0 ⟨[], [], [], 0⟩).2

/-- `"//f"`. -/
def slashSlashF : CStr := ⟨[slash, slash, 102], by decide⟩

theorem fMounted : FsMounted (fun _ => some 0) fStart where
  roots_lt := fun sb r h => by
    rw [Option.some.injEq] at h
    rw [← h]
    decide +kernel
  closed := rfl

/-- An open of `f` without room for the file leaves the inode with one reference. -/
theorem openRun_exact_iff_noRoom : ∃ st failed,
    OpenRun (fun n => n = 1) (fun _ => fVolume) (fun _ => some 0) rootMounts fStart st failed ∧
      st.inodes.length = 2 ∧ RefcountsExact fStart st := by
  have hres : (vfsResolve rootMounts
      (fs1Filesystems (fun n => n = 1) (fun _ => fVolume) (fun _ => some 0)) pageSize 0 (fun _ => 0)
      none slashSlashF fStart).map Prod.fst = some (some 1) := by decide +kernel
  have hopen : (vfsOpen (fun n => n = 1) (fun _ => fVolume) (fun _ => some 0) rootMounts pageSize 0
      (fun _ => 0) none slashSlashF fStart).map (fun r => (r.1, r.2.inodes.length))
        = some (none, 2) := by decide +kernel
  obtain ⟨⟨inode, st₁⟩, hres, hinode⟩ := Option.map_eq_some_iff.mp hres
  obtain ⟨⟨file, st⟩, hst, heq⟩ := Option.map_eq_some_iff.mp hopen
  simp only [Prod.mk.injEq] at heq hinode
  obtain ⟨rfl, hlen⟩ := heq
  rw [hinode] at hres
  have hrun := OpenRun.noRoom .start (by simp) hres hst
  refine ⟨st, [1], hrun, hlen, (openRun_exact_iff fMounted hrun).mpr fun inode hge hlt => ?_⟩
  have hstart : fStart.inodes.length = 1 := by decide +kernel
  obtain rfl : inode = 1 := by omega
  rfl

/-- After the first open of a file its inode has three references, two of them for
one user. -/
theorem open_leaves_lookup_reference :
    ¬ ∀ (room : Nat → Bool) (vols : SbPtr → Fs1Volume) (roots : SbPtr → Option InodePtr)
      (s : Mounts) (start st : Vfs) (failed : List InodePtr), FsMounted roots start →
      OpenRun room vols roots s start st failed → RefcountsExact start st := by
  intro hall
  have hopen : (vfsOpen (fun _ => true) (fun _ => fVolume) (fun _ => some 0) rootMounts pageSize 0
      (fun _ => 0) none slashSlashF fStart).map
        (fun r => (r.1, (r.2.inodes[1]?).map VfsInode.refcount, openOn r.2 1))
        = some (some 0, some 3, 1) := by decide +kernel
  obtain ⟨⟨file, st⟩, hst, heq⟩ := Option.map_eq_some_iff.mp hopen
  simp only [Prod.mk.injEq] at heq
  obtain ⟨rfl, href, hone⟩ := heq
  obtain ⟨i, hi, href⟩ := Option.map_eq_some_iff.mp href
  have hstart : fStart.inodes.length = 1 := by decide +kernel
  have hexact := hall _ _ _ _ _ _ _ fMounted (.opened .start (by simp) hst) 1 i (by omega) hi
  omega

end Ko6.Fs
