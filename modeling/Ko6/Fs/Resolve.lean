import Ko6.Common.Strsplit
import Ko6.Fs.MountResolve
import Ko6.Kernel.Kmemkernel

set_option autoImplicit false

/-!
# Fs: path resolution

`vfs_resolve` copies the path into a page, cuts the copy at the slashes, takes the
superblock of the path from the mount table and looks the parts up one after the
other.  All the parts of the path are looked up, those of the mount point included,
and at most 32 of them.  `vfsResolve_right_iff` gives the paths for which the result
is still the one of the components behind the mount point.
-/

namespace Ko6.Fs

open Ko6.Lib Ko6.Common Ko6.Kernel

/-! ## Model -/

/-- The mounted file systems: their roots and their `lookup`, over a state that the
lookups change. -/
structure Filesystems (σ : Type) where
  root : SbPtr → Option InodePtr
  inodeSb : σ → InodePtr → SbPtr
  lookup : SbPtr → Option InodePtr → List (BitVec 8) → σ → Option InodePtr × σ

/-- `"."`. -/
def dot : List (BitVec 8) := [46]

/-- The size of `parts`. -/
def maxParts : Nat := 32

section
variable {σ : Type} (s : Mounts) (fs : Filesystems σ)

/-- The loop of `vfs_resolve` over the mount table: the file system that is mounted on
an inode. -/
def vfsMountOn (inode : InodePtr) : Option SbPtr :=
  (List.range s.max).findSome? fun id =>
    (vfsMountSbGet s id).filter fun _ => vfsMountInodeGet s id = some inode

/-- Where `vfs_resolve` begins. -/
def vfsResolveStart (base : Option InodePtr) (path : CStr) (st : σ) :
    Option (SbPtr × InodePtr) :=
  if path.byte 0 = slash then
    match base with
    | some _ => none
    | none => (vfsMountResolve s path).bind fun sb => (fs.root sb).map fun inode => (sb, inode)
  else base.map fun inode => (fs.inodeSb st inode, inode)

/-- The loop of `vfs_resolve` over the parts. -/
def vfsResolveLoop (lim : Nat) (m : Mem) :
    List Nat → SbPtr → Option InodePtr → σ → Option (Option InodePtr × σ)
  | [], _, inode, st => some (inode, st)
  | part :: parts, sb, inode, st => do
    let name ← readChars m (lim - part) part
    if name = [] ∨ strcmp name dot = 0 then vfsResolveLoop lim m parts sb inode st
    else
      match fs.lookup sb inode name st with
      | (none, st) => some (none, st)
      | (some inode, st) =>
        match vfsMountOn s inode with
        | some mntSb => vfsResolveLoop lim m parts mntSb (fs.root mntSb) st
        | none => vfsResolveLoop lim m parts sb (some inode) st

/-- The page at `buf` with the copy of the path. -/
def pathCopy (m : Mem) (buf : Nat) (path : CStr) : Mem :=
  Function.update (strncpy m buf path pageSize) (buf + pageSize - 1) 0

/-- `vfs_resolve`, in a memory that can be read below `lim` and with the copy of the
path at `buf`: the inode and the state of the file systems, or `none` when it reads
past `lim`. -/
def vfsResolve (lim buf : Nat) (m : Mem) (base : Option InodePtr) (path : CStr) (st : σ) :
    Option (Option InodePtr × σ) :=
  if path.byte 0 = 0 then some (none, st)
  else do
    let (parts, m) ← strsplit lim rootPath (pathCopy m buf path) buf maxParts
    match vfsResolveStart s fs base path st with
    | none => some (none, st)
    | some (sb, inode) => vfsResolveLoop s fs lim m parts sb (some inode) st

/-! ## Names -/

/-- Look the names up one after the other, and go on at the root of a file system
when the inode is its mount point. -/
def lookupAll : List (List (BitVec 8)) → SbPtr → Option InodePtr → σ → Option InodePtr × σ
  | [], _, inode, st => (inode, st)
  | name :: names, sb, inode, st =>
    match fs.lookup sb inode name st with
    | (none, st) => (none, st)
    | (some inode, st) =>
      match vfsMountOn s inode with
      | some mntSb => lookupAll names mntSb (fs.root mntSb) st
      | none => lookupAll names sb (some inode) st

end

/-- The components of a path. -/
def components (l : List (BitVec 8)) : List (List (BitVec 8)) := tokens (· == slash) l

/-- The names among the components. -/
def names (parts : List (List (BitVec 8))) : List (List (BitVec 8)) := parts.filter (· ≠ dot)

/-- `vfs_resolve` gives what the components behind the mount point lead to. -/
def ResolveRight (s : Mounts) (path mnt : CStr) (sb : SbPtr) : Prop :=
  ∀ (σ : Type) (fs : Filesystems σ) (lim buf : Nat) (m : Mem) (st : σ), fs.root sb ≠ none →
    buf + pageSize ≤ lim →
    vfsResolve s fs lim buf m none path st
      = some (lookupAll s fs (names (components (path.chars.drop (strlen mnt)))) sb (fs.root sb) st)

/-- When it does: the mount is found, the parts looked up are the ones behind the
mount point, and the splitter stays in the copy. -/
structure ResolveOk (s : Mounts) (path mnt : CStr) : Prop where
  reached : RootReached s path
  sameNames : names ((components path.chars).take maxParts)
    = names (components (path.chars.drop (strlen mnt)))
  notPast : ¬ (path.chars.getLast? = some slash ∧ 0 < (components path.chars).length ∧
    (components path.chars).length ≤ maxParts)

section
variable {σ : Type} {s : Mounts} {fs : Filesystems σ} {path mnt : CStr} {sb : SbPtr}
  {lim buf : Nat} {m : Mem} {st : σ}

/-- A file system is found exactly on a mount point. -/
theorem vfsMountOn_eq_none_iff {inode : InodePtr} : vfsMountOn s inode = none ↔
    ∀ id sb, vfsMountSbGet s id = some sb → vfsMountInodeGet s id ≠ some inode := by
  unfold vfsMountOn
  rw [List.findSome?_eq_none_iff]
  constructor
  · intro h id sb hsb hinode
    have hid : id < s.max := by
      by_contra hge
      rw [vfsMountSbGet, if_neg hge] at hsb
      exact absurd hsb (by simp)
    have hnone := h id (List.mem_range.mpr hid)
    rw [hsb, hinode] at hnone
    exact absurd hnone (by simp)
  · intro h id _
    cases hsb : vfsMountSbGet s id with
    | none => rfl
    | some sb =>
      have hne := h id sb hsb
      simp [Option.filter, hne]

/-! ## The copy and its parts -/

theorem isSep_slash {c : BitVec 8} (hc : c ≠ 0) : isSep rootPath c = (c == slash) := by
  unfold isSep
  rw [show rootPath.chars = [slash] from rfl, strchr, strchr, if_neg hc]
  by_cases hs : slash = c
  · rw [if_pos hs, hs, beq_self_eq_true]
    rfl
  · rw [if_neg hs, beq_eq_false_iff_ne.mpr (Ne.symm hs)]
    rfl

theorem tokens_slash (path : CStr) :
    tokens (isSep rootPath) path.chars = components path.chars :=
  tokens_congr fun c hc => isSep_slash (path.nonzero c hc)

/-- The splitter runs past a copy that ends with a slash behind one of the parts. -/
theorem runsOff_slash_iff (path : CStr) : RunsOff rootPath path.chars maxParts ↔
    path.chars.getLast? = some slash ∧ 0 < (components path.chars).length ∧
      (components path.chars).length ≤ maxParts := by
  unfold RunsOff
  rw [tokens_slash]
  refine and_congr_left fun _ => ?_
  constructor
  · rintro ⟨c, hlast, hsep⟩
    rw [isSep_slash (path.nonzero c (List.mem_of_getLast? hlast)), beq_iff_eq] at hsep
    rw [hlast, hsep]
  · intro hlast
    exact ⟨slash, hlast, rfl⟩

theorem pathCopy_eq (path : CStr) (hlen : strlen path < pageSize) {i : Nat} (hi : i < pageSize) :
    pathCopy m buf path (buf + i) = path.byte i := by
  have hcopy : strncpy m buf path pageSize (buf + i) = path.byte i := by
    have hin : buf ≤ buf + i ∧ buf + i < buf + pageSize := ⟨by omega, by omega⟩
    rw [strncpy, if_pos hin, Nat.add_sub_cancel_left]
  unfold pathCopy
  by_cases hend : buf + i = buf + pageSize - 1
  · -- the last byte of the copy is a NUL already
    have hzero : path.byte i = 0 := by
      rw [path.byte_eq_zero_iff]
      unfold strlen at hlen
      omega
    rw [hend, Function.update_self, hzero]
  · rw [Function.update_of_ne hend, hcopy]

theorem bytesAt_of_get {l : List (BitVec 8)} {a : Nat}
    (h : ∀ i (hi : i < l.length), m (a + i) = l[i]) : BytesAt m a l := by
  induction l generalizing a with
  | nil => trivial
  | cons c l ih =>
    refine ⟨h 0 (Nat.succ_pos _), ih fun i hi => ?_⟩
    have hnext := h (i + 1) (by rw [List.length_cons]; omega)
    rwa [List.getElem_cons_succ, show a + (i + 1) = a + 1 + i by omega] at hnext

theorem pathCopy_bytes (path : CStr) (hlen : strlen path < pageSize) :
    BytesAt (pathCopy m buf path) buf (path.chars ++ [0]) := by
  refine bytesAt_of_get fun i hi => ?_
  unfold strlen at hlen
  rw [List.length_append, List.length_singleton] at hi
  rw [pathCopy_eq path hlen (by omega)]
  by_cases hlt : i < path.chars.length
  · rw [path.byte_of_lt hlt, List.getElem_append_left hlt]
  · have hend : i = path.chars.length := by omega
    subst hend
    rw [(path.byte_eq_zero_iff _).mpr (Nat.le_refl _), List.getElem_append_right (Nat.le_refl _)]
    simp

/-- The parts as names. -/
theorem vfsResolveLoop_eq {parts : List Nat} {ts : List (List (BitVec 8))}
    (h : List.Forall₂ (fun p t => BytesAt m p (t ++ [0]) ∧ p + t.length < lim) parts ts)
    (hts : ∀ t ∈ ts, t ≠ [] ∧ ∀ c ∈ t, c ≠ 0) (sb : SbPtr) (inode : Option InodePtr) (st : σ) :
    vfsResolveLoop s fs lim m parts sb inode st
      = some (lookupAll s fs (names ts) sb inode st) := by
  induction h generalizing sb inode st with
  | nil => rfl
  | @cons part t parts ts hpart _ ih =>
    obtain ⟨hbytes, hend⟩ := hpart
    obtain ⟨hne, hnz⟩ := hts t List.mem_cons_self
    have ih' := ih fun t ht => hts t (List.mem_cons_of_mem _ ht)
    have hskip : t = [] ∨ strcmp t dot = 0 ↔ t = dot := by
      rw [or_iff_right hne, strcmp_eq_zero hnz (by decide)]
    rw [vfsResolveLoop, readChars_eq hnz hbytes (by omega), Option.bind_eq_bind, Option.bind_some]
    unfold names at ih' ⊢
    by_cases ht : t = dot
    · rw [if_pos (hskip.mpr ht), List.filter_cons_of_neg (by simpa using ht)]
      exact ih' sb inode st
    · rw [if_neg (mt hskip.mp ht), List.filter_cons_of_pos (by simpa using ht), lookupAll]
      rcases hlook : fs.lookup sb inode t st with ⟨_ | found, st'⟩
      · rfl
      · simp only
        cases vfsMountOn s found with
        | none => exact ih' sb (some found) st'
        | some mntSb => exact ih' mntSb (fs.root mntSb) st'

theorem components_ok {t : List (BitVec 8)} {n : Nat}
    (ht : t ∈ (components path.chars).take n) : t ≠ [] ∧ ∀ c ∈ t, c ≠ 0 := by
  have hmem : t ∈ components path.chars := List.mem_of_mem_take ht
  exact ⟨ne_nil_of_mem_tokens hmem, fun c hc => path.nonzero c (mem_of_mem_tokens hmem hc)⟩

/-- `vfs_resolve` when the splitter stays in the copy. -/
theorem vfsResolve_eq (habs : path.byte 0 = slash) (hlen : strlen path < pageSize)
    (hfits : buf + pageSize ≤ lim) (hoff : ¬ RunsOff rootPath path.chars maxParts)
    (base : Option InodePtr) :
    vfsResolve s fs lim buf m base path st =
      match vfsResolveStart s fs base path st with
      | none => some (none, st)
      | some (sb, inode) =>
        some (lookupAll s fs (names ((components path.chars).take maxParts)) sb (some inode) st) := by
  have hne : path.byte 0 ≠ 0 := by
    rw [habs]
    decide
  have hend : buf + path.chars.length < lim := by
    unfold strlen at hlen
    omega
  have hcopy : BytesAt (pathCopy m buf path) buf (path.chars ++ [0]) := pathCopy_bytes path hlen
  obtain ⟨parts, m', hsplit, hall⟩ := strsplit_spec path.nonzero hcopy hend hoff
  rw [tokens_slash] at hall
  rw [vfsResolve, if_neg hne, hsplit, Option.bind_eq_bind, Option.bind_some]
  cases vfsResolveStart s fs base path st with
  | none => rfl
  | some start => exact vfsResolveLoop_eq hall (fun t ht => components_ok ht) _ _ _

theorem vfsResolveStart_root {r : InodePtr} (habs : path.byte 0 = slash)
    (hmount : vfsMountResolve s path = some sb) (hroot : fs.root sb = some r) :
    vfsResolveStart s fs none path st = some (sb, r) := by
  rw [vfsResolveStart, if_pos habs]
  simp only [hmount, Option.bind_some, hroot, Option.map_some]

/-- What the lookups keep, the resolution keeps; and what they say about the inode they
find, it says about its result. -/
theorem vfsResolveLoop_keeps {P : σ → Prop} {V : σ → InodePtr → Prop}
    (hroot : ∀ st sb r, P st → fs.root sb = some r → V st r)
    (hlook : ∀ st sb dir name, P st → P (fs.lookup sb dir name st).2 ∧
      ∀ i, (fs.lookup sb dir name st).1 = some i → V (fs.lookup sb dir name st).2 i)
    {parts : List Nat} {inode : Option InodePtr} {r : Option InodePtr × σ} (hst : P st)
    (hinode : ∀ i, inode = some i → V st i)
    (h : vfsResolveLoop s fs lim m parts sb inode st = some r) :
    P r.2 ∧ ∀ i, r.1 = some i → V r.2 i := by
  induction parts generalizing sb inode st with
  | nil =>
    rw [vfsResolveLoop, Option.some.injEq] at h
    rw [← h]
    exact ⟨hst, hinode⟩
  | cons part parts ih =>
    obtain ⟨name, -, h⟩ := Option.bind_eq_some_iff.mp h
    by_cases hskip : name = [] ∨ strcmp name dot = 0
    · rw [if_pos hskip] at h
      exact ih hst hinode h
    · rw [if_neg hskip] at h
      obtain ⟨hP, hV⟩ := hlook st sb inode name hst
      rcases hfound : fs.lookup sb inode name st with ⟨_ | found, st'⟩
      · rw [hfound] at h hP
        have heq : (none, st') = r := Option.some.inj h
        rw [← heq]
        exact ⟨hP, fun i hi => absurd hi (by simp)⟩
      · rw [hfound] at h hP hV
        cases hon : vfsMountOn s found with
        | none =>
          simp only [hon] at h
          exact ih hP hV h
        | some mntSb =>
          simp only [hon] at h
          exact ih hP (fun i hi => hroot st' mntSb i hP hi) h

theorem vfsResolve_keeps {P : σ → Prop} {V : σ → InodePtr → Prop} {base : Option InodePtr}
    (hroot : ∀ st sb r, P st → fs.root sb = some r → V st r)
    (hlook : ∀ st sb dir name, P st → P (fs.lookup sb dir name st).2 ∧
      ∀ i, (fs.lookup sb dir name st).1 = some i → V (fs.lookup sb dir name st).2 i)
    (hst : P st) (hbase : ∀ b, base = some b → V st b) {r : Option InodePtr × σ}
    (h : vfsResolve s fs lim buf m base path st = some r) :
    P r.2 ∧ ∀ i, r.1 = some i → V r.2 i := by
  have hnull : ∀ r : Option InodePtr × σ, some (none, st) = some r →
      P r.2 ∧ ∀ i, r.1 = some i → V r.2 i := by
    intro r hr
    rw [Option.some.injEq] at hr
    rw [← hr]
    exact ⟨hst, fun i hi => absurd hi (by simp)⟩
  unfold vfsResolve at h
  by_cases hempty : path.byte 0 = 0
  · rw [if_pos hempty] at h
    exact hnull r h
  · rw [if_neg hempty] at h
    obtain ⟨⟨parts, m'⟩, -, h⟩ := Option.bind_eq_some_iff.mp h
    cases hstart : vfsResolveStart s fs base path st with
    | none =>
      rw [hstart] at h
      exact hnull r h
    | some start =>
      obtain ⟨sb, inode⟩ := start
      rw [hstart] at h
      refine vfsResolveLoop_keeps hroot hlook hst (fun i hi => ?_) h
      rw [Option.some.injEq] at hi
      rw [← hi]
      unfold vfsResolveStart at hstart
      by_cases habs : path.byte 0 = slash
      · -- an absolute path begins at a root
        rw [if_pos habs] at hstart
        cases base with
        | some b => exact absurd hstart (by simp)
        | none =>
          obtain ⟨sb', -, hsb'⟩ := Option.bind_eq_some_iff.mp hstart
          obtain ⟨r, hr, heq⟩ := Option.map_eq_some_iff.mp hsb'
          rw [Prod.mk.injEq] at heq
          rw [← heq.2]
          exact hroot st sb' r hst hr
      · rw [if_neg habs] at hstart
        obtain ⟨b, hb, heq⟩ := Option.map_eq_some_iff.mp hstart
        rw [Prod.mk.injEq] at heq
        rw [← heq.2]
        exact hbase b hb

/-- The paths that are resolved right. -/
theorem IsMountOf.resolveRight (h : IsMountOf s path mnt sb) (habs : path.byte 0 = slash)
    (hlen : strlen path < pageSize)
    (hmnt : ∀ mnt sb, Registered s mnt sb → mnt.byte 0 = slash) (hok : ResolveOk s path mnt) :
    ResolveRight s path mnt sb := by
  intro σ fs lim buf m st hroot hfits
  obtain ⟨r, hr⟩ := Option.ne_none_iff_exists'.mp hroot
  have hoff : ¬ RunsOff rootPath path.chars maxParts :=
    fun hoff => hok.notPast ((runsOff_slash_iff path).mp hoff)
  have hmount : vfsMountResolve s path = some sb := by
    rcases h.resolve habs hmnt with ⟨-, heq⟩ | ⟨hnot, -⟩
    · exact heq
    · exact absurd hok.reached hnot
  rw [vfsResolve_eq habs hlen hfits hoff, vfsResolveStart_root habs hmount hr]
  simp only
  rw [hok.sameNames, hr]

/-! ## A file system that tells what is looked up -/

/-- Every name is found, and the names are kept in the state. -/
def namesFs : Filesystems (List (List (BitVec 8))) where
  root := fun _ => some 0
  inodeSb := fun _ _ => 0
  lookup := fun _ _ name st => (some 0, st ++ [name])

theorem lookupAll_namesFs (ts : List (List (BitVec 8))) (sb : SbPtr) (inode : InodePtr)
    (st : List (List (BitVec 8))) :
    ∃ found, lookupAll s namesFs ts sb (some inode) st = (some found, st ++ ts) := by
  induction ts generalizing sb inode st with
  | nil => exact ⟨inode, by rw [lookupAll, List.append_nil]⟩
  | cons t ts ih =>
    have hlook : namesFs.lookup sb (some inode) t st = (some 0, st ++ [t]) := rfl
    rw [lookupAll, hlook]
    simp only
    rw [show st ++ t :: ts = st ++ [t] ++ ts by rw [List.append_assoc]; rfl]
    cases vfsMountOn s 0 with
    | none => exact ih sb 0 (st ++ [t])
    | some mntSb => exact ih mntSb 0 (st ++ [t])

/-- In a memory of zeros the splitter that runs past the copy reads past the end. -/
theorem vfsResolve_fault (habs : path.byte 0 = slash) (hlen : strlen path < pageSize)
    (hoff : RunsOff rootPath path.chars maxParts) (base : Option InodePtr) :
    vfsResolve s fs pageSize 0 (fun _ => 0) base path st = none := by
  have hne : path.byte 0 ≠ 0 := by
    rw [habs]
    decide
  have hend : 0 + path.chars.length < pageSize := by
    unfold strlen at hlen
    omega
  have hzero : ∀ b, 0 + path.chars.length ≤ b → pathCopy (fun _ => 0) 0 path b = 0 := by
    intro b hb
    by_cases hin : b < pageSize
    · have hcopy : pathCopy (fun _ => 0) 0 path (0 + b) = path.byte b := pathCopy_eq path hlen hin
      rw [Nat.zero_add] at hcopy
      rw [hcopy, path.byte_eq_zero_iff]
      omega
    · have hout : ¬ (0 ≤ b ∧ b < 0 + pageSize) := by omega
      rw [pathCopy, Function.update_of_ne (by omega), strncpy, if_neg hout]
  rw [vfsResolve, if_neg hne,
    strsplit_fault path.nonzero (pathCopy_bytes path hlen) hend hzero hoff]
  rfl

/-- What a right result tells about the path. -/
theorem IsMountOf.resolveOk (h : IsMountOf s path mnt sb) (habs : path.byte 0 = slash)
    (hlen : strlen path < pageSize)
    (hmnt : ∀ mnt sb, Registered s mnt sb → mnt.byte 0 = slash)
    (hright : ResolveRight s path mnt sb) : ResolveOk s path mnt := by
  have hres := hright _ namesFs pageSize 0 (fun _ => 0) [] (by simp [namesFs]) (by omega)
  obtain ⟨found, hfound⟩ := lookupAll_namesFs (s := s)
    (names (components (path.chars.drop (strlen mnt)))) sb 0 []
  rw [show namesFs.root sb = some 0 from rfl, hfound] at hres
  have hoff : ¬ RunsOff rootPath path.chars maxParts := by
    intro hoff
    rw [vfsResolve_fault habs hlen hoff] at hres
    exact absurd hres (by simp)
  rw [vfsResolve_eq habs hlen (by omega) hoff] at hres
  rcases h.resolve habs hmnt with ⟨hreach, heq⟩ | ⟨-, heq⟩
  · refine ⟨hreach, ?_, fun hpast => hoff ((runsOff_slash_iff path).mpr hpast)⟩
    obtain ⟨found', hfound'⟩ := lookupAll_namesFs (s := s)
      (names ((components path.chars).take maxParts)) sb 0 []
    rw [vfsResolveStart_root habs heq (show namesFs.root sb = some 0 from rfl)] at hres
    simp only [hfound', Option.some.injEq, Prod.mk.injEq, List.nil_append] at hres
    exact hres.2
  · -- no superblock: `NULL`
    have hstart : vfsResolveStart s namesFs none path ([] : List (List (BitVec 8))) = none := by
      rw [vfsResolveStart, if_pos habs]
      simp only [heq, Option.bind_none]
    rw [hstart] at hres
    simp only [Option.some.injEq, Prod.mk.injEq] at hres
    exact absurd hres.1 (by simp)

/-- A path is resolved right exactly when its mount is found, the parts looked up are
the ones behind the mount point and no slash ends it. -/
theorem vfsResolve_right_iff (h : IsMountOf s path mnt sb) (habs : path.byte 0 = slash)
    (hlen : strlen path < pageSize)
    (hmnt : ∀ mnt sb, Registered s mnt sb → mnt.byte 0 = slash) :
    ResolveRight s path mnt sb ↔ ResolveOk s path mnt :=
  ⟨h.resolveOk habs hlen hmnt, h.resolveRight habs hlen hmnt⟩

end

/-! ## A path on the root mount, and one below a mount -/

theorem isMountOf_slashSlashA : IsMountOf rootMounts slashSlashA rootPath 0 where
  mounted := by
    obtain ⟨id, hpath, hsb⟩ := registered_root
    refine ⟨id, hpath, hsb, fun id' hlt hpath' => ?_⟩
    have hid : id < rootMounts.max := by
      by_contra hge
      rw [vfsMountPathGet, if_neg hge] at hpath
      exact absurd hpath (by simp)
    have hmax : rootMounts.max = 1 := by decide +kernel
    omega
  covers := .inl rfl
  longest := fun mnt' sb' h _ => by rw [(registered_rootMounts h).1]

/-- `//a` is looked up from the root mount. -/
theorem vfsResolve_right_iff_rootMounts : ResolveRight rootMounts slashSlashA rootPath 0 :=
  (vfsResolve_right_iff isMountOf_slashSlashA (by decide) (by decide) rootMounts_absolute).mpr
    { reached := fun _ => .inr (.inl (by decide))
      sameNames := by decide +kernel
      notPast := by decide +kernel }

/-- `"/a/b"`. -/
def pathAB : CStr := ⟨[slash, 97, slash, 98], by decide⟩

theorem registered_letterMounts {mnt : CStr} {sb : SbPtr} (h : Registered (letterMounts 1) mnt sb) :
    mnt = letterPath 0 ∧ sb = 0 := by
  obtain ⟨id, hid, hpath, hsb⟩ := registered_lt h
  have hmax : (letterMounts 1).max = 1 := by decide +kernel
  obtain rfl : id = 0 := by omega
  have hpath0 : vfsMountPathGet (letterMounts 1) 0 = some (letterPath 0) := by decide +kernel
  have hsb0 : vfsMountSbGet (letterMounts 1) 0 = some 0 := by decide +kernel
  rw [hpath, Option.some.injEq] at hpath0
  rw [hsb, Option.some.injEq] at hsb0
  exact ⟨hpath0, hsb0⟩

/-- With a file system on `/a`, `/a/b` is looked up there as `a`, then `b`. -/
theorem vfsResolve_looks_mount_up :
    ¬ ∀ (s : Mounts) (path mnt : CStr) (sb : SbPtr), IsMountOf s path mnt sb →
      path.byte 0 = slash → strlen path < pageSize →
      (∀ mnt sb, Registered s mnt sb → mnt.byte 0 = slash) → ResolveRight s path mnt sb := by
  intro hall
  have hmount : IsMountOf (letterMounts 1) pathAB (letterPath 0) 0 :=
    { mounted := ⟨0, by decide +kernel, by decide +kernel, fun id h => absurd h (Nat.not_lt_zero id)⟩
      covers := .inr ⟨⟨[slash, 98], by decide⟩, by decide⟩
      longest := fun mnt' sb' h _ => by rw [(registered_letterMounts h).1] }
  have habsolute : ∀ mnt sb, Registered (letterMounts 1) mnt sb → mnt.byte 0 = slash := by
    intro mnt sb h
    rw [(registered_letterMounts h).1]
    rfl
  have hok := hmount.resolveOk (by decide) (by decide) habsolute
    (hall _ _ _ _ hmount (by decide) (by decide) habsolute)
  have hnames : names ((components pathAB.chars).take maxParts)
      ≠ names (components (pathAB.chars.drop (strlen (letterPath 0)))) := by
    decide +kernel
  exact hnames hok.sameNames

end Ko6.Fs
