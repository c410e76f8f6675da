import Ko6.Lib.RefCount

set_option autoImplicit false

/-!
# Fs: the open files of `fs/pvfs.c`

A descriptor is an entry of the table `o_file`, which points to an object of the kernel
heap.  `open` allocates an object for a free entry, `dup2` lets an entry point to the
object of another one, and `close` gives an entry back.  The field `ref` of an object
should count the entries that point to it; it is tested for zero when one goes away.

`init_ofile` does not write `ref`.  The count starts at the zero of `kmalloc` instead of
one, and stays one too small from then on.
-/

namespace Ko6.Fs

open Ko6.Lib

/-! ## Data -/

/-- `MAX_O_FILE`. -/
def maxOFile : Nat := 64

/-- `FILE_T` and the other types in the flags. -/
def fileT : BitVec 8 := 1 <<< 3
def dirT : BitVec 8 := 2 <<< 3
def stdinT : BitVec 8 := 4 <<< 3
def stdoutT : BitVec 8 := 5 <<< 3
def stderrT : BitVec 8 := 6 <<< 3

/-- `IS_TYPE`. -/
def isType (flag type : BitVec 8) : Bool := flag &&& 0xF8 = type

/-- The functions that `read` and `write` of an open file point to. -/
inductive FileFn where
  | null | noRead | noWrite | fileRead | fileWrite | ttyRead | ttyWrite
  deriving DecidableEq

/-- A node of the tree, with the field `flags` of `struct pfs_s`. -/
structure Pfs where
  addr : Nat
  flags : BitVec 8

/-- `struct file_s`. -/
structure OpenFile where
  file : Option Pfs
  flags : BitVec 8
  read : FileFn
  write : FileFn
  ref : BitVec 32

/-- The table of a process and the objects of the heap; `given` are those that `kmalloc`
has given and that are not freed. -/
structure Pvfs where
  oFile : Nat → Option Nat
  file : Nat → OpenFile
  given : Nat → Bool

namespace Pvfs

def setOFile (s : Pvfs) (fd : Nat) (obj : Option Nat) : Pvfs :=
  { s with oFile := Function.update s.oFile fd obj }

def modFile (s : Pvfs) (obj : Nat) (f : OpenFile → OpenFile) : Pvfs :=
  { s with file := Function.update s.file obj (f (s.file obj)) }

end Pvfs

/-! ## Functions

`none` is what the code does not survive: a pointer that is `NULL`, an index that is not
one of the table, and a `kfree` of what is not allocated. -/

/-- `kfree`. -/
def pvfsKfree (s : Pvfs) (obj : Nat) : Option Pvfs :=
  if s.given obj then some { s with given := Function.update s.given obj false } else none

/-- What `kmalloc` gives is cleared. -/
def clearedFile : OpenFile where
  file := none
  flags := 0
  read := .null
  write := .null
  ref := 0

/-- `get_newFd`, with `obj` the object that `kmalloc` gives. -/
def getNewFd (s : Pvfs) (obj : Nat) : Int × Pvfs :=
  match (List.range maxOFile).find? fun i => (s.oFile i).isNone with
  | some i =>
    let s := { s with given := Function.update s.given obj true }
    let s := s.modFile obj fun _ => clearedFile
    (i, s.setOFile i (some obj))
  | none => (-1, s)

/-- `put_Fd`. -/
def putFd (s : Pvfs) (fd : Nat) : Option Pvfs := do
  let res ← s.oFile fd
  let s := s.modFile res fun f => { f with ref := f.ref - 1 }
  let s ← if (s.file res).ref = 0 then pvfsKfree s res else some s
  some (s.setOFile fd none)

/-- `init_ofile`; its argument `type` is not used. -/
def initOfile (s : Pvfs) (fd : Int) (file : Pfs) (flags _type : BitVec 8) : Option Pvfs :=
  if fd < 0 then none
  else do
    let obj ← s.oFile fd.toNat
    let s := s.modFile obj fun f => { f with file := some file, flags := flags }
    let type := flags &&& 0xF8
    let (read, write) : FileFn × FileFn :=
      if type = dirT then (.noRead, .noWrite)
      else if type = fileT then (.fileRead, .fileWrite)
      else if type = stdinT ∨ type = stdoutT ∨ type = stderrT then (.ttyRead, .ttyWrite)
      else (.noRead, .noWrite)
    some (s.modFile obj fun f => { f with read := read, write := write })

/-- `open`, after `open_any` and `create_pfs` have found or made the node `file`. -/
def pvfsOpen (s : Pvfs) (file : Option Pfs) (flags : BitVec 32) (obj : Nat) :
    Option (Int × Pvfs) :=
  match file with
  | none => some (-1, s)
  | some file =>
    if isType file.flags fileT then do
      let (fd, s) := getNewFd s obj
      let s ← initOfile s fd file (flags.setWidth 8) fileT
      some (fd, s)
    else if isType file.flags dirT then do
      let (fd, s) := getNewFd s obj
      let s ← initOfile s fd file (flags.setWidth 8) dirT
      some (fd, s)
    else some (-1, s)

/-- `close`. -/
def pvfsClose (s : Pvfs) (fd : Int) : Option (Int × Pvfs) :=
  if fd < 0 ∨ fd ≥ maxOFile then some (-1, s)
  else do
    let s ← putFd s fd.toNat
    some (0, s.setOFile fd.toNat none)

/-- `dup2`: the entry `oldfd` gets the object of `newfd`. -/
def pvfsDup2 (s : Pvfs) (oldfd newfd : Nat) : Option (Int × Pvfs) := do
  let s ← putFd s oldfd
  let obj ← s.oFile newfd
  let s := s.modFile obj fun f => { f with ref := f.ref + 1 }
  some (0, s.setOFile oldfd (some obj))

/-! ## Runs -/

/-- A call. -/
inductive PvfsOp where
  | «open» (file : Option Pfs) (flags : BitVec 32) (obj : Nat)
  | dup2 (oldfd newfd : Nat)
  | close (fd : Nat)

/-- The descriptor is open. -/
def Pvfs.IsOpen (s : Pvfs) (fd : Nat) : Prop := fd < maxOFile ∧ s.oFile fd ≠ none

/-- There are a descriptor and an object for `open`; `dup2` and `close` are called for
open descriptors. -/
def PvfsOp.Ok (s : Pvfs) : PvfsOp → Prop
  | .open _ _ obj => (∃ fd, fd < maxOFile ∧ s.oFile fd = none) ∧ s.given obj = false
  | .dup2 oldfd newfd => s.IsOpen oldfd ∧ s.IsOpen newfd
  | .close fd => s.IsOpen fd

/-- The call. -/
def pvfsDo (s : Pvfs) : PvfsOp → Option Pvfs
  | .open file flags obj => (pvfsOpen s file flags obj).map Prod.snd
  | .dup2 oldfd newfd => (pvfsDup2 s oldfd newfd).map Prod.snd
  | .close fd => (pvfsClose s fd).map Prod.snd

/-- Every call finds the state it needs. -/
def PvfsPermitted : List PvfsOp → Pvfs → Prop
  | [], _ => True
  | op :: ops, s => op.Ok s ∧ ∀ s', pvfsDo s op = some s' → PvfsPermitted ops s'

instance (s : Pvfs) (fd : Nat) : Decidable (s.IsOpen fd) :=
  inferInstanceAs (Decidable (_ ∧ _))

instance (s : Pvfs) : (op : PvfsOp) → Decidable (op.Ok s)
  | .open _ _ _ => inferInstanceAs (Decidable (_ ∧ _))
  | .dup2 _ _ => inferInstanceAs (Decidable (_ ∧ _))
  | .close fd => inferInstanceAs (Decidable (s.IsOpen fd))

instance PvfsPermitted.decidable :
    (ops : List PvfsOp) → (s : Pvfs) → Decidable (PvfsPermitted ops s)
  | [], _ => .isTrue trivial
  | op :: ops, s =>
    have : Decidable (∀ s', pvfsDo s op = some s' → PvfsPermitted ops s') :=
      match pvfsDo s op with
      | none => .isTrue fun _ h => nomatch h
      | some s₁ =>
        have := PvfsPermitted.decidable ops s₁
        decidable_of_iff (PvfsPermitted ops s₁)
          ⟨fun h _ hs => Option.some.inj hs ▸ h, fun h => h s₁ rfl⟩
    inferInstanceAs (Decidable (_ ∧ _))

/-- The objects in use are those that an entry points to, and `ref` counts the entries. -/
structure RefsOk (s : Pvfs) : Prop where
  given : ∀ obj, s.given obj = true ↔ 0 < refs maxOFile s.oFile obj
  ref : ∀ obj, s.given obj = true → (s.file obj).ref.toNat = refs maxOFile s.oFile obj

/-- In all the states of the run the counts are right: an object is freed with its last
entry, and no call fails. -/
def RefsKept : List PvfsOp → Pvfs → Prop
  | [], s => RefsOk s
  | op :: ops, s => RefsOk s ∧ ∃ s', pvfsDo s op = some s' ∧ RefsKept ops s'

/-- The node can be opened. -/
def Pfs.Opens (file : Pfs) : Prop := isType file.flags fileT ∨ isType file.flags dirT

/-- The calls that do what they should: an `open` that does not open, a `close`, and a
`dup2` of two different descriptors. -/
def PvfsOp.Counts : PvfsOp → Prop
  | .open file _ _ => ∀ f ∈ file, ¬ f.Opens
  | .dup2 oldfd newfd => oldfd ≠ newfd
  | .close _ => True

/-! ## What a call does -/

section
variable {s s' : Pvfs} {fd obj : Nat}

theorem RefsOk.given_of_entry (h : RefsOk s) (hfd : fd < maxOFile) (hobj : s.oFile fd = some obj) :
    s.given obj = true :=
  (h.given obj).mpr (refs_pos_iff.mpr ⟨fd, hfd, hobj⟩)

/-- The counts look at the table, at the objects in use and at their field `ref`. -/
theorem RefsOk.congr (h : RefsOk s) (hfile : s'.oFile = s.oFile) (hgiven : s'.given = s.given)
    (href : ∀ obj, s.given obj = true → (s'.file obj).ref = (s.file obj).ref) : RefsOk s' := by
  constructor
  · intro obj
    rw [hgiven, hfile]
    exact h.given obj
  · intro obj hobj
    rw [hgiven] at hobj
    rw [hfile, href obj hobj]
    exact h.ref obj hobj

/-- `put_Fd` of an open descriptor takes one entry away, and the object with the last
one. -/
theorem RefsOk.putFd (h : RefsOk s) (hopen : s.IsOpen fd) :
    ∃ s', putFd s fd = some s' ∧ s'.oFile = Function.update s.oFile fd none ∧ RefsOk s' := by
  obtain ⟨hfd, hne⟩ := hopen
  obtain ⟨res, hres⟩ := Option.ne_none_iff_exists'.mp hne
  have hgiven := h.given_of_entry hfd hres
  have hpos : 0 < refs maxOFile s.oFile res := (h.given res).mp hgiven
  have href := h.ref res hgiven
  have hone : refs maxOFile (Function.update s.oFile fd none) res + 1 =
      refs maxOFile s.oFile res := refs_clear hfd hres
  have hother : ∀ obj, obj ≠ res → refs maxOFile (Function.update s.oFile fd none) obj =
      refs maxOFile s.oFile obj := by
    intro obj hne
    refine refs_update_of_ne hfd ?_ (by simp)
    rw [hres]
    simpa using hne.symm
  have hle : refs maxOFile s.oFile res ≤ maxOFile := refs_le
  have hmax : maxOFile < 2 ^ 32 := by decide
  have hless : ((s.file res).ref - 1).toNat = refs maxOFile s.oFile res - 1 := by
    rw [BitVec.toNat_sub, href]
    simp only [BitVec.ofNat_eq_ofNat, BitVec.toNat_ofNat]
    omega
  -- the fields after `res->ref --`
  let s₁ := s.modFile res fun f => { f with ref := f.ref - 1 }
  have hself : (s₁.file res).ref = (s.file res).ref - 1 := by
    simp only [s₁, Pvfs.modFile, Function.update_self]
  have hfile : ∀ obj, obj ≠ res → s₁.file obj = s.file obj :=
    fun obj hne => Function.update_of_ne hne _ _
  by_cases hzero : (s₁.file res).ref = 0
  · -- the last entry
    have hlast : refs maxOFile (Function.update s.oFile fd none) res = 0 := by
      rw [hself] at hzero
      rw [hzero] at hless
      simp only [BitVec.ofNat_eq_ofNat, BitVec.toNat_ofNat] at hless
      omega
    refine ⟨{ s₁ with
      oFile := Function.update s.oFile fd none
      given := Function.update s.given res false }, ?_, rfl, ?_, ?_⟩
    · unfold Fs.putFd
      simp only [hres, Option.bind_eq_bind, Option.bind_some]
      have hgiven₁ : s₁.given res = true := hgiven
      rw [if_pos hzero, pvfsKfree, if_pos hgiven₁]
      rfl
    · intro obj
      change Function.update s.given res false obj = true ↔ _
      rcases eq_or_ne obj res with rfl | hne
      · simp [hlast]
      · rw [Function.update_of_ne hne, hother obj hne]
        exact h.given obj
    · intro obj hobj
      have hne : obj ≠ res := by
        rintro rfl
        simp at hobj
      change Function.update s.given res false obj = true at hobj
      rw [Function.update_of_ne hne] at hobj
      change (s₁.file obj).ref.toNat = refs maxOFile (Function.update s.oFile fd none) obj
      rw [hfile obj hne, hother obj hne]
      exact h.ref obj hobj
  · -- another entry points to the object
    have hmore : 0 < refs maxOFile (Function.update s.oFile fd none) res := by
      by_contra hnot
      refine hzero (BitVec.eq_of_toNat_eq ?_)
      rw [hself, hless]
      simp only [BitVec.ofNat_eq_ofNat, BitVec.toNat_ofNat]
      omega
    refine ⟨{ s₁ with oFile := Function.update s.oFile fd none }, ?_, rfl, ?_, ?_⟩
    · unfold Fs.putFd
      simp only [hres, Option.bind_eq_bind, Option.bind_some]
      rw [if_neg hzero]
      rfl
    · intro obj
      change s.given obj = true ↔ _
      rcases eq_or_ne obj res with rfl | hne
      · simp [hmore, hgiven]
      · rw [hother obj hne]
        exact h.given obj
    · intro obj hobj
      change (s₁.file obj).ref.toNat = _
      rcases eq_or_ne obj res with rfl | hne
      · rw [hself, hless]
        change _ = refs maxOFile (Function.update s.oFile fd none) obj
        omega
      · rw [hfile obj hne]
        change _ = refs maxOFile (Function.update s.oFile fd none) obj
        rw [hother obj hne]
        exact h.ref obj hobj

/-- `close` of an open descriptor. -/
theorem RefsOk.close (h : RefsOk s) (hopen : s.IsOpen fd) :
    ∃ s', pvfsDo s (.close fd) = some s' ∧ RefsOk s' := by
  obtain ⟨s₁, hput, hfile, hok⟩ := h.putFd hopen
  have hrange : ¬ ((fd : Int) < 0 ∨ (fd : Int) ≥ maxOFile) := by
    have := hopen.1
    omega
  refine ⟨s₁.setOFile fd none, ?_, hok.congr ?_ rfl fun _ _ => rfl⟩
  · unfold pvfsDo pvfsClose
    simp only [hrange, if_false, Int.toNat_natCast, hput, Option.bind_eq_bind, Option.bind_some,
      Option.map_some]
  · change Function.update s₁.oFile fd none = s₁.oFile
    rw [hfile, Function.update_idem]

/-- `dup2` of two open descriptors that are not the same. -/
theorem RefsOk.dup2 {oldfd newfd : Nat} (h : RefsOk s) (hold : s.IsOpen oldfd)
    (hnew : s.IsOpen newfd) (hne : oldfd ≠ newfd) :
    ∃ s', pvfsDo s (.dup2 oldfd newfd) = some s' ∧ RefsOk s' := by
  obtain ⟨s₁, hput, hfile, hok⟩ := h.putFd hold
  obtain ⟨obj, hobj⟩ := Option.ne_none_iff_exists'.mp hnew.2
  have hentry : s₁.oFile newfd = some obj := by
    rw [hfile, Function.update_of_ne hne.symm, hobj]
  have hempty : s₁.oFile oldfd = none := by
    rw [hfile, Function.update_self]
  have hgiven := hok.given_of_entry hnew.1 hentry
  have hmore : refs maxOFile (Function.update s₁.oFile oldfd (some obj)) obj =
      refs maxOFile s₁.oFile obj + 1 := refs_set hold.1 (by simp [hempty])
  have hother : ∀ o, o ≠ obj → refs maxOFile (Function.update s₁.oFile oldfd (some obj)) o =
      refs maxOFile s₁.oFile o := fun o hne =>
    refs_update_of_ne hold.1 (by simp [hempty]) (by simpa using hne.symm)
  have hle : refs maxOFile (Function.update s₁.oFile oldfd (some obj)) obj ≤ maxOFile := refs_le
  have hmax : maxOFile < 2 ^ 32 := by decide
  let s₂ := s₁.modFile obj fun f => { f with ref := f.ref + 1 }
  refine ⟨s₂.setOFile oldfd (some obj), ?_, ?_, ?_⟩
  · unfold pvfsDo pvfsDup2
    simp only [hput, Option.bind_eq_bind, Option.bind_some, hentry, Option.map_some]
    rfl
  · intro o
    change s₁.given o = true ↔ 0 < refs maxOFile (Function.update s₁.oFile oldfd (some obj)) o
    rcases eq_or_ne o obj with rfl | hne
    · simp [hgiven, hmore]
    · rw [hother o hne]
      exact hok.given o
  · intro o ho
    change (s₂.file o).ref.toNat = refs maxOFile (Function.update s₁.oFile oldfd (some obj)) o
    rcases eq_or_ne o obj with rfl | hne
    · have hself : (s₂.file o).ref = (s₁.file o).ref + 1 := by
        simp only [s₂, Pvfs.modFile, Function.update_self]
      rw [hself, BitVec.toNat_add, hok.ref o hgiven, hmore]
      exact Nat.mod_eq_of_lt (by simp only [BitVec.ofNat_eq_ofNat, BitVec.toNat_ofNat]; omega)
    · have hkept : s₂.file o = s₁.file o := Function.update_of_ne hne _ _
      rw [hkept, hother o hne]
      exact hok.ref o ho

/-- `dup2` of a descriptor with itself reads the entry that it has cleared. -/
theorem RefsOk.dup2_self (h : RefsOk s) (hopen : s.IsOpen fd) :
    pvfsDo s (.dup2 fd fd) = none := by
  obtain ⟨s₁, hput, hfile, -⟩ := h.putFd hopen
  have hempty : s₁.oFile fd = none := by
    rw [hfile, Function.update_self]
  unfold pvfsDo pvfsDup2
  simp only [hput, Option.bind_eq_bind, Option.bind_some, hempty, Option.bind_none,
    Option.map_none]

/-- `init_ofile` does not write `ref`. -/
theorem initOfile_spec {file : Pfs} {flags type : BitVec 8} (hobj : s.oFile fd = some obj) :
    ∃ s', initOfile s fd file flags type = some s' ∧ s'.oFile = s.oFile ∧ s'.given = s.given ∧
      (s'.file obj).ref = (s.file obj).ref := by
  unfold initOfile
  rw [if_neg (by omega)]
  simp only [Int.toNat_natCast, hobj, Option.bind_eq_bind, Option.bind_some]
  refine ⟨_, rfl, rfl, rfl, ?_⟩
  simp only [Pvfs.modFile, Function.update_self]

/-- A file that is opened has an entry and a count of zero. -/
theorem open_uncounted {file : Pfs} {flags : BitVec 32}
    (hok : (PvfsOp.open (some file) flags obj).Ok s) (hopens : file.Opens)
    (hdo : pvfsDo s (.open (some file) flags obj) = some s') : ¬ RefsOk s' := by
  obtain ⟨⟨fd₀, hfd₀, hnone₀⟩, -⟩ := hok
  obtain ⟨fd, hfind⟩ : ∃ fd, (List.range maxOFile).find? (fun i => (s.oFile i).isNone) = some fd := by
    rw [← Option.isSome_iff_exists, List.find?_isSome]
    exact ⟨fd₀, List.mem_range.mpr hfd₀, by simp [hnone₀]⟩
  have hfd : fd < maxOFile := List.mem_range.mp (List.mem_of_find?_eq_some hfind)
  let s₁ : Pvfs := (Pvfs.modFile { s with given := Function.update s.given obj true } obj
    fun _ => clearedFile).setOFile fd (some obj)
  have hget : getNewFd s obj = ((fd : Int), s₁) := by
    unfold getNewFd
    rw [hfind]
  have hentry : s₁.oFile fd = some obj := Function.update_self ..
  have hzero : (s₁.file obj).ref = 0 := by
    simp only [s₁, Pvfs.modFile, Pvfs.setOFile, Function.update_self, clearedFile]
  have hinit : ∀ type, ∃ s₂, initOfile s₁ fd file (flags.setWidth 8) type = some s₂ ∧
      s₂.oFile = s₁.oFile ∧ s₂.given = s₁.given ∧ (s₂.file obj).ref = (s₁.file obj).ref :=
    fun _ => initOfile_spec hentry
  -- both branches of `open` end with `init_ofile`
  have hend : s'.oFile = s₁.oFile ∧ s'.given = s₁.given ∧ (s'.file obj).ref = (s₁.file obj).ref := by
    unfold pvfsDo pvfsOpen at hdo
    simp only [hget, Option.bind_eq_bind] at hdo
    by_cases hfile : isType file.flags fileT = true
    · obtain ⟨s₂, hs₂, hrest⟩ := hinit fileT
      rw [if_pos hfile, hs₂] at hdo
      simp only [Option.bind_some, Option.map_some, Option.some.injEq] at hdo
      rwa [← hdo]
    · obtain ⟨s₂, hs₂, hrest⟩ := hinit dirT
      rw [if_neg hfile, if_pos (hopens.resolve_left hfile), hs₂] at hdo
      simp only [Option.bind_some, Option.map_some, Option.some.injEq] at hdo
      rwa [← hdo]
  obtain ⟨hfile, hgiven, href⟩ := hend
  intro hs'
  have hin : s'.given obj = true := by
    rw [hgiven]
    exact Function.update_self ..
  have hpos := (hs'.given obj).mp hin
  have hcount := hs'.ref obj hin
  rw [href, hzero] at hcount
  simp only [BitVec.ofNat_eq_ofNat, BitVec.toNat_ofNat] at hcount
  omega

/-- An `open` that fails changes nothing. -/
theorem open_fails {file : Option Pfs} {flags : BitVec 32} (h : ∀ f ∈ file, ¬ f.Opens) :
    pvfsDo s (.open file flags obj) = some s := by
  unfold pvfsDo pvfsOpen
  cases file with
  | none => rfl
  | some file =>
    have hnot := h file rfl
    unfold Pfs.Opens at hnot
    push Not at hnot
    simp [hnot.1, hnot.2]

/-- A call keeps the counts right exactly when it is one that counts. -/
theorem RefsOk.step {op : PvfsOp} (h : RefsOk s) (hok : op.Ok s) :
    (∃ s', pvfsDo s op = some s' ∧ RefsOk s') ↔ op.Counts := by
  cases op with
  | «open» file flags obj =>
    constructor
    · rintro ⟨s', hdo, hs'⟩ f hf hopens
      obtain rfl : file = some f := hf
      exact open_uncounted hok hopens hdo hs'
    · exact fun hnot => ⟨s, open_fails hnot, h⟩
  | dup2 oldfd newfd =>
    constructor
    · rintro ⟨s', hdo, -⟩ rfl
      rw [h.dup2_self hok.1] at hdo
      exact absurd hdo (by simp)
    · exact fun hne => h.dup2 hok.1 hok.2 hne
  | close fd => exact iff_of_true (h.close hok) trivial

end

/-! ## Runs -/

/-- From a state in which the counts are right they stay so, in every run of permitted
calls, exactly when no call opens a file and no `dup2` has the same descriptor twice. -/
theorem pvfsRun_refs_iff {s : Pvfs} {ops : List PvfsOp} (h : RefsOk s)
    (hperm : PvfsPermitted ops s) : RefsKept ops s ↔ ∀ op ∈ ops, op.Counts := by
  have hhead : ∀ {ops : List PvfsOp} {s : Pvfs}, RefsKept ops s → RefsOk s := by
    intro ops s hkept
    cases ops with
    | nil => exact hkept
    | cons op ops => exact hkept.1
  induction ops generalizing s with
  | nil => exact iff_of_true h (by simp)
  | cons op ops ih =>
    obtain ⟨hok, hrest⟩ := hperm
    rw [List.forall_mem_cons]
    constructor
    · rintro ⟨-, s', hdo, hkept⟩
      have hs' := hhead hkept
      exact ⟨(h.step hok).mp ⟨s', hdo, hs'⟩, (ih hs' (hrest s' hdo)).mp hkept⟩
    · rintro ⟨hcounts, hothers⟩
      obtain ⟨s', hdo, hs'⟩ := (h.step hok).mpr hcounts
      exact ⟨h, s', hdo, (ih hs' (hrest s' hdo)).mpr hothers⟩

/-- A process without open files. -/
def noOpenFile : Pvfs where
  oFile _ := none
  file _ := clearedFile
  given _ := false

theorem refsOk_noOpenFile : RefsOk noOpenFile := by
  have hnone : ∀ obj, refs maxOFile noOpenFile.oFile obj = 0 := by
    intro obj
    by_contra hne
    obtain ⟨fd, -, hfd⟩ := refs_pos_iff.mp (Nat.pos_of_ne_zero hne)
    exact absurd hfd (by simp [noOpenFile])
  constructor
  · intro obj
    rw [hnone obj]
    simp [noOpenFile]
  · intro obj hobj
    exact absurd hobj (by simp [noOpenFile])

/-- A file with the rights to read and to write. -/
def plainFile : Pfs := { addr := 256, flags := fileT ||| 3 }

/-- Two files are opened, the descriptor 0 gets the object of descriptor 1 and is then
closed. -/
def twoOpens : List PvfsOp :=
  [.open (some plainFile) 0 4096, .open (some plainFile) 0 8192, .dup2 0 1, .close 0]

/-- The count of an open file is zero.  After the four calls the object of descriptor 1
is freed, and that of the closed file is not. -/
theorem pvfs_ref_uncounted :
    PvfsPermitted [.open (some plainFile) 0 4096] noOpenFile ∧
      ¬ RefsKept [.open (some plainFile) 0 4096] noOpenFile ∧
      ∃ s, twoOpens.foldlM pvfsDo noOpenFile = some s ∧
        s.oFile 1 = some 8192 ∧ s.given 8192 = false ∧
        (∀ fd, fd < maxOFile → s.oFile fd ≠ some 4096) ∧ s.given 4096 = true := by
  have hok : (PvfsOp.open (some plainFile) 0 4096).Ok noOpenFile := ⟨⟨0, by decide, rfl⟩, rfl⟩
  have hopens : plainFile.Opens := .inl (by decide)
  refine ⟨⟨hok, fun _ _ => trivial⟩, ?_, ?_⟩
  · rintro ⟨-, s', hdo, hs'⟩
    exact open_uncounted hok hopens hdo hs'
  · have hrun : ((twoOpens.foldlM pvfsDo noOpenFile).map fun s =>
        (s.oFile 1, s.given 8192, decide (∀ fd, fd < maxOFile → s.oFile fd ≠ some 4096),
          s.given 4096)) = some (some 8192, false, true, true) := by
      decide +kernel
    obtain ⟨s, hs, hfields⟩ := Option.map_eq_some_iff.mp hrun
    simp only [Prod.mk.injEq, decide_eq_true_eq] at hfields
    exact ⟨s, hs, hfields.1, hfields.2.1, hfields.2.2.1, hfields.2.2.2⟩

/-- Two descriptors of one object, counted right. -/
def sharedFile : Pvfs where
  oFile fd := if fd = 0 ∨ fd = 1 then some 4096 else none
  file _ := { clearedFile with file := some plainFile, ref := 2 }
  given obj := obj = 4096

/-- The counts of the shared file stay right while its descriptors are closed, and those
of a new process as long as no file is found. -/
theorem pvfsRun_refs_iff_shared :
    RefsKept [.dup2 0 1, .close 0, .close 1] sharedFile ∧
      RefsKept [.open none 0 4096] noOpenFile := by
  have hother : ∀ obj, obj ≠ 4096 → refs maxOFile sharedFile.oFile obj = 0 := by
    intro obj hne
    by_contra hpos
    obtain ⟨fd, -, hfd⟩ := refs_pos_iff.mp (Nat.pos_of_ne_zero hpos)
    simp only [sharedFile, Option.ite_none_right_eq_some, Option.some.injEq] at hfd
    exact hne hfd.2.symm
  have htwo : refs maxOFile sharedFile.oFile 4096 = 2 := by decide +kernel
  have h : RefsOk sharedFile := by
    constructor
    · intro obj
      rcases eq_or_ne obj 4096 with rfl | hne
      · rw [htwo]
        simp [sharedFile]
      · rw [hother obj hne]
        simp [sharedFile, hne]
    · intro obj hobj
      obtain rfl : obj = 4096 := by simpa [sharedFile] using hobj
      rw [htwo]
      rfl
  have hperm : PvfsPermitted [.dup2 0 1, .close 0, .close 1] sharedFile := by decide +kernel
  have hnew : PvfsPermitted [.open none 0 4096] noOpenFile := by decide +kernel
  exact ⟨(pvfsRun_refs_iff h hperm).mpr (by simp [PvfsOp.Counts]),
    (pvfsRun_refs_iff refsOk_noOpenFile hnew).mpr (by simp [PvfsOp.Counts])⟩

end Ko6.Fs
