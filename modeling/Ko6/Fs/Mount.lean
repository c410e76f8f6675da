import Ko6.Common.Cstd

set_option autoImplicit false

/-!
# Fs: the mount table of `fs/vfs.c`

Fifteen entries, unused where the path is `NULL`, and `Vfs_mount_max`, one more
than the greatest entry in use.  The accessors ignore an id that is not below it.
Pointers to inodes and superblocks are numbers.
-/

namespace Ko6.Fs

open Ko6.Lib Ko6.Common

/-! ## Model -/

/-- `ENOSPC` and `ENOENT`. -/
def enospc : Int := 13
def enoent : Int := 16

/-- `VFS_MOUNT_MAX` and `VFS_FILESYSTEM_MAX`. -/
def vfsMountMax : Nat := 15
def vfsFilesystemMax : Nat := 8

/-- The addresses of a `vfs_inode_t` and of a `superblock_t`. -/
abbrev InodePtr : Type := Nat
abbrev SbPtr : Type := Nat

/-- `struct mount_point_s`, `none` for `NULL`. -/
structure MountPoint where
  path : Option CStr
  inode : Option InodePtr
  sb : Option SbPtr

/-- `Vfs_mount_table`, `Vfs_mount_max` and the field `mnt_id` of the
superblocks. -/
structure Mounts where
  table : Nat → MountPoint
  max : Nat
  mntId : SbPtr → Int

section
variable (s : Mounts) (id : Nat)

def vfsMountPathGet : Option CStr := if id < s.max then (s.table id).path else none

def vfsMountInodeGet : Option InodePtr := if id < s.max then (s.table id).inode else none

def vfsMountSbGet : Option SbPtr := if id < s.max then (s.table id).sb else none

/-- An assignment to a field of an entry, if the id is valid. -/
def Mounts.setEntry (f : MountPoint → MountPoint) : Mounts :=
  if id < s.max then { s with table := Function.update s.table id (f (s.table id)) } else s

def vfsMountPathSet (path : Option CStr) : Mounts := s.setEntry id fun e => { e with path := path }

def vfsMountInodeSet (inode : Option InodePtr) : Mounts :=
  s.setEntry id fun e => { e with inode := inode }

def vfsMountSbSet (sb : Option SbPtr) : Mounts := s.setEntry id fun e => { e with sb := sb }

end

/-- The search of `vfs_mount_update_max` from entry `n - 1` down. -/
def usedBelow (table : Nat → MountPoint) : Nat → Nat
  | 0 => 0
  | n + 1 => if (table n).path = none then usedBelow table n else n + 1

/-- `vfs_mount_update_max`. -/
def vfsMountUpdateMax (s : Mounts) (id : Nat) : Mounts :=
  if s.max ≤ id then { s with max := id + 1 } else { s with max := usedBelow s.table s.max }

/-- `vfs_mount_alloc`; `none` for `-ENOSPC`.  The loop runs to
`VFS_FILESYSTEM_MAX`. -/
def vfsMountAlloc (s : Mounts) : Option (Nat × Mounts) :=
  ((List.range vfsFilesystemMax).find? fun id => vfsMountPathGet s id = none).map fun id =>
    (id, vfsMountUpdateMax s id)

/-- `vfs_mount_register`: the id, or `-ENOSPC`. -/
def vfsMountRegister (s : Mounts) (path : CStr) (inode : Option InodePtr) (sb : SbPtr) :
    Int × Mounts :=
  match vfsMountAlloc s with
  | none => (-enospc, s)
  | some (id, s) =>
    let s := { s with mntId := Function.update s.mntId sb (id : Int) }
    let s := vfsMountPathSet s id (some path)
    let s := vfsMountInodeSet s id inode
    let s := vfsMountSbSet s id (some sb)
    (id, s)

/-- The loop of `vfs_mount_lookup` over `n` entries from `id` on; `none` when
`strcmp` is called on a `NULL` path. -/
def vfsMountLookupFrom (s : Mounts) (path : CStr) : Nat → Nat → Option Int
  | 0, _ => some (-enoent)
  | n + 1, id =>
    match vfsMountPathGet s id with
    | none => none
    | some curpath =>
      if strcmp path.chars curpath.chars = 0 then some id
      else vfsMountLookupFrom s path n (id + 1)

/-- `vfs_mount_lookup`. -/
def vfsMountLookup (s : Mounts) (path : CStr) : Option Int := vfsMountLookupFrom s path s.max 0

/-- `vfs_mount_unregister`: the superblock, or `NULL` for a path that is not
found. -/
def vfsMountUnregister (s : Mounts) (path : CStr) : Option (Option SbPtr × Mounts) := do
  let id ← vfsMountLookup s path
  if id < 0 then some (none, s)
  else
    let id := id.toNat
    let sb := vfsMountSbGet s id
    let s := vfsMountPathSet s id none
    let s := vfsMountInodeSet s id none
    let s := vfsMountSbSet s id none
    let s := vfsMountUpdateMax s id
    match sb with
    | none => none
    | some sb => some (some sb, { s with mntId := Function.update s.mntId sb (-1) })

/-! ## Runs of registrations -/

/-- A live mount: the id that its registration returned, and what was
registered. -/
structure Mount where
  id : Nat
  path : CStr
  inode : Option InodePtr
  sb : SbPtr

/-- The states reached from the empty table by `vfs_mount_register` of a path that
is not live and `vfs_mount_unregister` of any path, with the live mounts. -/
inductive MountRun (mntId : SbPtr → Int) : Mounts → List Mount → Prop where
  | start : MountRun mntId ⟨fun _ => ⟨none, none, none⟩, 0, mntId⟩ []
  | register {s s' : Mounts} {live : List Mount} {path : CStr} {inode : Option InodePtr}
      {sb : SbPtr} {id : Nat} : MountRun mntId s live → (∀ m ∈ live, m.path ≠ path) →
      vfsMountRegister s path inode sb = ((id : Int), s') →
      MountRun mntId s' (live ++ [⟨id, path, inode, sb⟩])
  | registerFails {s s' : Mounts} {live : List Mount} {path : CStr} {inode : Option InodePtr}
      {sb : SbPtr} {err : Int} : MountRun mntId s live → (∀ m ∈ live, m.path ≠ path) →
      vfsMountRegister s path inode sb = (err, s') → err < 0 → MountRun mntId s' live
  | unregister {s s' : Mounts} {live : List Mount} {path : CStr} {sb : Option SbPtr} :
      MountRun mntId s live → vfsMountUnregister s path = some (sb, s') →
      MountRun mntId s' (live.filter fun m => m.path ≠ path)

/-- The live mounts have distinct ids, their entries hold them, and
`Vfs_mount_max` is one more than the greatest id, or 0. -/
structure MountsOk (s : Mounts) (live : List Mount) : Prop where
  ids : (live.map Mount.id).Nodup
  entry : ∀ m ∈ live, vfsMountPathGet s m.id = some m.path ∧
    vfsMountInodeGet s m.id = m.inode ∧ vfsMountSbGet s m.id = some m.sb
  max : (live = [] ∧ s.max = 0) ∨
    ∃ m ∈ live, s.max = m.id + 1 ∧ ∀ m' ∈ live, m'.id ≤ m.id

/-- `vfs_mount_lookup` returns the id of a live path and `-ENOENT` for another. -/
def LookupRight (s : Mounts) (live : List Mount) (path : CStr) : Prop :=
  ∃ r, vfsMountLookup s path = some r ∧
    ((∃ m ∈ live, m.path = path ∧ r = m.id) ∨ (∀ m ∈ live, m.path ≠ path) ∧ r = -enoent)

/-- `vfs_mount_register` fails only when every entry is in use. -/
def RegisterRight (s : Mounts) (live : List Mount) (path : CStr) (inode : Option InodePtr)
    (sb : SbPtr) : Prop :=
  (vfsMountRegister s path inode sb).1 = -enospc → live.length = vfsMountMax

/-- No unused entry stands before that of the path, or, if it has none, before
`Vfs_mount_max`. -/
def NoHoleBefore (s : Mounts) (path : CStr) : Prop :=
  ∀ id, id < s.max → vfsMountPathGet s id = none → ∃ j, j < id ∧ vfsMountPathGet s j = some path

/-! ## The invariant -/

structure MountsInv (s : Mounts) (live : List Mount) : Prop where
  ids : (live.map Mount.id).Nodup
  entry : ∀ m ∈ live, s.table m.id = ⟨some m.path, m.inode, some m.sb⟩
  unused : ∀ id, (∀ m ∈ live, m.id ≠ id) → (s.table id).path = none
  lt_max : ∀ m ∈ live, m.id < s.max
  max_used : s.max = 0 ∨ ∃ m ∈ live, m.id + 1 = s.max
  id_lt : ∀ m ∈ live, m.id < vfsFilesystemMax

section
variable {s s' : Mounts} {live : List Mount} {path : CStr} {inode : Option InodePtr} {sb : SbPtr}
  {id n : Nat} {mntId : SbPtr → Int}

theorem usedBelow_spec (table : Nat → MountPoint) : ∀ n, usedBelow table n ≤ n ∧
    (∀ i, usedBelow table n ≤ i → i < n → (table i).path = none) ∧
    (usedBelow table n = 0 ∨ ∃ i, i + 1 = usedBelow table n ∧ (table i).path ≠ none) := by
  intro n
  induction n with
  | zero => exact ⟨Nat.le_refl _, fun i _ hi => absurd hi (Nat.not_lt_zero i), .inl rfl⟩
  | succ n ih =>
    obtain ⟨hle, hnone, hused⟩ := ih
    rw [usedBelow]
    by_cases hn : (table n).path = none
    · rw [if_pos hn]
      refine ⟨by omega, fun i hlo hi => ?_, hused⟩
      rcases Nat.lt_succ_iff_lt_or_eq.mp hi with hlt | rfl
      · exact hnone i hlo hlt
      · exact hn
    · rw [if_neg hn]
      exact ⟨Nat.le_refl _, fun i _ _ => by omega, .inr ⟨n, rfl, hn⟩⟩

theorem MountsInv.used (h : MountsInv s live) (hp : (s.table id).path = some path) :
    ∃ m ∈ live, m.id = id ∧ m.path = path := by
  by_contra hno
  have hne : ∀ m ∈ live, m.id ≠ id := by
    intro m hm hid
    refine hno ⟨m, hm, hid, ?_⟩
    have hentry := h.entry m hm
    rw [hid] at hentry
    rw [hentry, Option.some.injEq] at hp
    exact hp
  rw [h.unused id hne] at hp
  exact absurd hp (by simp)

theorem MountsInv.pathGet (h : MountsInv s live) : vfsMountPathGet s id = (s.table id).path := by
  unfold vfsMountPathGet
  by_cases hid : id < s.max
  · exact if_pos hid
  · rw [if_neg hid, h.unused id fun m hm he => hid (he ▸ h.lt_max m hm)]

/-- While the mark is exact, `vfs_mount_update_max` only raises it to an entry
above. -/
theorem MountsInv.updateMax (h : MountsInv s live) :
    vfsMountUpdateMax s id = { s with max := max s.max (id + 1) } := by
  unfold vfsMountUpdateMax
  by_cases hmax : s.max ≤ id
  · rw [if_pos hmax, Nat.max_eq_right (by omega)]
  · obtain ⟨hle, hnone, -⟩ := usedBelow_spec s.table s.max
    have htop : usedBelow s.table s.max = s.max := by
      by_contra hne
      rcases h.max_used with h0 | ⟨m, hm, hmid⟩
      · omega
      · have hfree := hnone m.id (by omega) (by omega)
        rw [h.entry m hm] at hfree
        exact absurd hfree (by simp)
    rw [if_neg hmax, htop, Nat.max_eq_left (by omega)]

theorem MountsInv.ok (h : MountsInv s live) : MountsOk s live := by
  refine ⟨h.ids, fun m hm => ?_, ?_⟩
  · have hlt := h.lt_max m hm
    simp only [vfsMountPathGet, vfsMountInodeGet, vfsMountSbGet, if_pos hlt, h.entry m hm, and_self]
  · rcases h.max_used with h0 | ⟨m, hm, hmid⟩
    · left
      refine ⟨List.eq_nil_iff_forall_not_mem.mpr fun m hm => ?_, h0⟩
      have := h.lt_max m hm
      omega
    · right
      refine ⟨m, hm, hmid.symm, fun m' hm' => ?_⟩
      have := h.lt_max m' hm'
      omega

/-! ## Registration -/

/-- The number of live mounts, against the entries that `vfs_mount_alloc` looks
at. -/
theorem MountsInv.length_le (h : MountsInv s live) : live.length ≤ vfsFilesystemMax := by
  have hsub : (live.map Mount.id).toFinset ⊆ Finset.range vfsFilesystemMax := by
    intro id hid
    obtain ⟨m, hm, rfl⟩ := List.mem_map.mp (List.mem_toFinset.mp hid)
    exact Finset.mem_range.mpr (h.id_lt m hm)
  have hcard := Finset.card_le_card hsub
  rwa [List.toFinset_card_of_nodup h.ids, List.length_map, Finset.card_range] at hcard

/-- All these entries are in use exactly when there are that many live mounts. -/
theorem MountsInv.full_iff (h : MountsInv s live) :
    (∀ id, id < vfsFilesystemMax → (s.table id).path ≠ none) ↔ live.length = vfsFilesystemMax := by
  have hsub : (live.map Mount.id).toFinset ⊆ Finset.range vfsFilesystemMax := by
    intro id hid
    obtain ⟨m, hm, rfl⟩ := List.mem_map.mp (List.mem_toFinset.mp hid)
    exact Finset.mem_range.mpr (h.id_lt m hm)
  have hcard : (live.map Mount.id).toFinset.card = live.length := by
    rw [List.toFinset_card_of_nodup h.ids, List.length_map]
  constructor
  · intro hall
    have hsup : Finset.range vfsFilesystemMax ⊆ (live.map Mount.id).toFinset := by
      intro id hid
      obtain ⟨path, hp⟩ := Option.ne_none_iff_exists'.mp (hall id (Finset.mem_range.mp hid))
      obtain ⟨m, hm, hmid, -⟩ := h.used hp
      exact List.mem_toFinset.mpr (List.mem_map.mpr ⟨m, hm, hmid⟩)
    have hge := Finset.card_le_card hsup
    rw [Finset.card_range, hcard] at hge
    exact Nat.le_antisymm h.length_le hge
  · intro hlen id hid
    have heq := Finset.eq_of_subset_of_card_le hsub (by rw [hcard, hlen, Finset.card_range])
    have hmem := Finset.mem_range.mpr hid
    rw [← heq] at hmem
    obtain ⟨m, hm, rfl⟩ := List.mem_map.mp (List.mem_toFinset.mp hmem)
    rw [h.entry m hm]
    simp

/-- `vfs_mount_register`: the first unused entry, or `-ENOSPC`. -/
theorem MountsInv.register (h : MountsInv s live) (path : CStr) (inode : Option InodePtr)
    (sb : SbPtr) :
    (live.length = vfsFilesystemMax ∧ vfsMountRegister s path inode sb = (-enospc, s)) ∨
    ∃ (id : Nat) (s' : Mounts), vfsMountRegister s path inode sb = ((id : Int), s') ∧
      MountsInv s' (live ++ [⟨id, path, inode, sb⟩]) := by
  unfold vfsMountRegister vfsMountAlloc
  cases hfind : (List.range vfsFilesystemMax).find? fun id => vfsMountPathGet s id = none with
  | none =>
    left
    refine ⟨h.full_iff.mp fun id hid => ?_, rfl⟩
    have hno := List.find?_eq_none.mp hfind id (List.mem_range.mpr hid)
    rw [← h.pathGet]
    simpa using hno
  | some id =>
    right
    have hid : id < vfsFilesystemMax := List.mem_range.mp (List.mem_of_find?_eq_some hfind)
    have hfree : (s.table id).path = none := by
      have hp := List.find?_some hfind
      rw [← h.pathGet]
      simpa using hp
    have hnew : ∀ m ∈ live, m.id ≠ id := by
      intro m hm he
      rw [← he, h.entry m hm] at hfree
      exact absurd hfree (by simp)
    have hlt : id < max s.max (id + 1) := by omega
    simp only [Option.map_some, h.updateMax, vfsMountPathSet, vfsMountInodeSet,
      vfsMountSbSet, Mounts.setEntry, hlt, if_true, Function.update_self, Function.update_idem]
    refine ⟨id, _, rfl, ?_, ?_, ?_, ?_, ?_, ?_⟩
    · simp only [List.map_append, List.map_cons, List.map_nil]
      refine h.ids.append (List.nodup_singleton id) ?_
      intro i hi hi'
      obtain ⟨m, hm, rfl⟩ := List.mem_map.mp hi
      exact hnew m hm (List.mem_singleton.mp hi')
    · intro m hm
      rcases List.mem_append.mp hm with hm | hm
      · exact (Function.update_of_ne (hnew m hm) _ _).trans (h.entry m hm)
      · rw [List.mem_singleton.mp hm]
        exact Function.update_self ..
    · intro j hj
      have hjid : j ≠ id := fun he => hj ⟨id, path, inode, sb⟩ (by simp) he.symm
      refine (congrArg MountPoint.path (Function.update_of_ne hjid _ _)).trans ?_
      exact h.unused j fun m hm => hj m (List.mem_append_left _ hm)
    · intro m hm
      rcases List.mem_append.mp hm with hm | hm
      · have := h.lt_max m hm
        simp only
        omega
      · rw [List.mem_singleton.mp hm]
        exact hlt
    · right
      by_cases hle : s.max ≤ id + 1
      · exact ⟨_, List.mem_append_right _ (List.mem_singleton_self _), by simp only; omega⟩
      · rcases h.max_used with h0 | ⟨m, hm, hmid⟩
        · omega
        · exact ⟨m, List.mem_append_left _ hm, by simp only; omega⟩
    · intro m hm
      rcases List.mem_append.mp hm with hm | hm
      · exact h.id_lt m hm
      · rw [List.mem_singleton.mp hm]
        exact hid

theorem MountsInv.register_iff (h : MountsInv s live) :
    RegisterRight s live path inode sb ↔ live.length ≠ vfsFilesystemMax := by
  unfold RegisterRight
  rcases h.register path inode sb with ⟨hfull, heq⟩ | ⟨id, s', heq, hinv⟩
  · rw [heq]
    constructor
    · intro hright
      have hmany := hright rfl
      rw [hfull] at hmany
      exact absurd hmany (by decide)
    · exact fun hne => absurd hfull hne
  · rw [heq]
    constructor
    · intro _ hfull
      have hle := hinv.length_le
      rw [List.length_append, List.length_singleton, hfull] at hle
      omega
    · intro _ herr
      have henospc : (enospc : Int) = 13 := rfl
      simp only [henospc] at herr
      omega

/-! ## Search -/

/-- The three ends of the loop of `vfs_mount_lookup`. -/
theorem vfsMountLookupFrom_cases (s : Mounts) (path : CStr) : ∀ n id,
    (∃ j, id ≤ j ∧ j < id + n ∧ vfsMountLookupFrom s path n id = some (j : Int) ∧
      vfsMountPathGet s j = some path ∧
      ∀ k, id ≤ k → k < j → ∃ q, vfsMountPathGet s k = some q ∧ q ≠ path) ∨
    (vfsMountLookupFrom s path n id = some (-enoent) ∧
      ∀ k, id ≤ k → k < id + n → ∃ q, vfsMountPathGet s k = some q ∧ q ≠ path) ∨
    (vfsMountLookupFrom s path n id = none ∧ ∃ k, id ≤ k ∧ k < id + n ∧
      vfsMountPathGet s k = none ∧
      ∀ j, id ≤ j → j < k → ∃ q, vfsMountPathGet s j = some q ∧ q ≠ path) := by
  intro n
  induction n with
  | zero => exact fun id => .inr (.inl ⟨rfl, fun k hlo hhi => by omega⟩)
  | succ n ih =>
    intro id
    cases hp : vfsMountPathGet s id with
    | none =>
      refine .inr (.inr ⟨by simp only [vfsMountLookupFrom, hp], id, Nat.le_refl _, by omega, hp, ?_⟩)
      exact fun j hlo hhi => by omega
    | some q =>
      by_cases hcmp : strcmp path.chars q.chars = 0
      · have hq : path = q := CStr.strcmp_eq_zero_iff.mp hcmp
        refine .inl ⟨id, Nat.le_refl _, by omega, ?_, hq ▸ hp, fun k hlo hhi => by omega⟩
        simp only [vfsMountLookupFrom, hp, hcmp, if_true]
      · have hq : q ≠ path := fun he => hcmp (CStr.strcmp_eq_zero_iff.mpr he.symm)
        have hfirst : ∀ k, id ≤ k → (id + 1 ≤ k → ∃ q, vfsMountPathGet s k = some q ∧ q ≠ path) →
            ∃ q, vfsMountPathGet s k = some q ∧ q ≠ path := by
          intro k hlo hk
          rcases Nat.eq_or_lt_of_le hlo with rfl | hlt
          · exact ⟨q, hp, hq⟩
          · exact hk hlt
        simp only [vfsMountLookupFrom, hp, hcmp, if_false]
        rcases ih (id + 1) with ⟨j, hlo, hhi, heq, hj, hbefore⟩ | ⟨heq, hall⟩ |
          ⟨heq, k, hlo, hhi, hk, hbefore⟩
        · exact .inl ⟨j, by omega, by omega, heq, hj,
            fun k hlo' hkj => hfirst k hlo' fun h => hbefore k h hkj⟩
        · exact .inr (.inl ⟨heq, fun k hlo' hhi' => hfirst k hlo' fun h => hall k h (by omega)⟩)
        · exact .inr (.inr ⟨heq, k, by omega, by omega, hk,
            fun j hlo' hjk => hfirst j hlo' fun h => hbefore j h hjk⟩)

theorem MountsInv.live_of_pathGet (h : MountsInv s live)
    (hp : vfsMountPathGet s id = some path) : ∃ m ∈ live, m.id = id ∧ m.path = path := by
  rw [h.pathGet] at hp
  exact h.used hp

theorem MountsInv.pathGet_of_live (h : MountsInv s live) {m : Mount} (hm : m ∈ live) :
    vfsMountPathGet s m.id = some m.path := by
  rw [h.pathGet, h.entry m hm]

/-- A search meets no unused entry and is right, or it compares with one. -/
theorem MountsInv.lookup (h : MountsInv s live) (path : CStr) :
    (NoHoleBefore s path ∧ LookupRight s live path) ∨
      (¬ NoHoleBefore s path ∧ vfsMountLookup s path = none) := by
  unfold NoHoleBefore LookupRight vfsMountLookup
  rcases vfsMountLookupFrom_cases s path s.max 0 with ⟨j, -, hhi, heq, hj, hbefore⟩ |
    ⟨heq, hall⟩ | ⟨heq, k, -, hhi, hk, hbefore⟩
  · -- the entry of the path
    left
    obtain ⟨m, hm, rfl, hpath⟩ := h.live_of_pathGet hj
    refine ⟨fun id hid hnone => ⟨m.id, ?_, hj⟩, _, heq, .inl ⟨m, hm, hpath, rfl⟩⟩
    by_contra hle
    rcases Nat.eq_or_lt_of_le (Nat.le_of_not_lt hle) with rfl | hlt
    · rw [hnone] at hj
      exact absurd hj (by simp)
    · obtain ⟨q, hq, -⟩ := hbefore id (Nat.zero_le _) hlt
      rw [hnone] at hq
      exact absurd hq (by simp)
  · -- no entry has the path, and none is unused
    left
    refine ⟨fun id hid hnone => ?_, _, heq, .inr ⟨fun m hm hpath => ?_, rfl⟩⟩
    · obtain ⟨q, hq, -⟩ := hall id (Nat.zero_le _) (by omega)
      rw [hnone] at hq
      exact absurd hq (by simp)
    · have hlt := h.lt_max m hm
      obtain ⟨q, hq, hne⟩ := hall m.id (Nat.zero_le _) (by omega)
      rw [h.pathGet_of_live hm, Option.some.injEq] at hq
      exact hne (hq.symm.trans hpath)
  · -- an unused entry comes first
    right
    refine ⟨fun hhole => ?_, heq⟩
    obtain ⟨j, hjk, hj⟩ := hhole k (by omega) hk
    obtain ⟨q, hq, hne⟩ := hbefore j (Nat.zero_le _) hjk
    rw [hj, Option.some.injEq] at hq
    exact absurd hq.symm hne

theorem MountsInv.lookup_iff (h : MountsInv s live) :
    LookupRight s live path ↔ NoHoleBefore s path := by
  rcases h.lookup path with ⟨hhole, hright⟩ | ⟨hhole, heq⟩
  · exact ⟨fun _ => hhole, fun _ => hright⟩
  · refine ⟨fun ⟨r, hr, _⟩ => ?_, fun hh => absurd hh hhole⟩
    rw [heq] at hr
    exact absurd hr (by simp)

/-! ## Removal -/

/-- `vfs_mount_unregister`, when its search ends. -/
theorem MountsInv.unregister {res : Option SbPtr} (h : MountsInv s live)
    (hpaths : (live.map Mount.path).Nodup)
    (hun : vfsMountUnregister s path = some (res, s')) :
    MountsInv s' (live.filter fun m => m.path ≠ path) := by
  have hright : LookupRight s live path := by
    rcases h.lookup path with ⟨-, hright⟩ | ⟨-, heq⟩
    · exact hright
    · rw [vfsMountUnregister, heq] at hun
      exact absurd hun (by simp)
  obtain ⟨r, hr, ⟨m, hm, rfl, rfl⟩ | ⟨hno, rfl⟩⟩ := hright
  · have hlt := h.lt_max m hm
    have hsb : vfsMountSbGet s m.id = some m.sb := by
      rw [vfsMountSbGet, if_pos hlt, h.entry m hm]
    have hnot : ¬ ((m.id : Int) < 0) := by omega
    simp only [vfsMountUnregister, hr, Option.bind_eq_bind, Option.bind_some, hnot, if_false,
      Int.toNat_natCast, hsb, vfsMountPathSet, vfsMountInodeSet, vfsMountSbSet, Mounts.setEntry,
      hlt, if_true, Function.update_self, Function.update_idem, vfsMountUpdateMax,
      Nat.not_le.mpr hlt, Option.some.injEq, Prod.mk.injEq] at hun
    obtain ⟨-, rfl⟩ := hun
    obtain ⟨hle, hnone, hused⟩ :=
      usedBelow_spec (Function.update s.table m.id ⟨none, none, none⟩) s.max
    have hmem : ∀ m', m' ∈ live.filter (fun x => x.path ≠ m.path) →
        m' ∈ live ∧ m'.id ≠ m.id := by
      intro m' hm'
      obtain ⟨hm₁, hm₂⟩ := List.mem_filter.mp hm'
      refine ⟨hm₁, fun he => ?_⟩
      have heq : m' = m := List.inj_on_of_nodup_map h.ids hm₁ hm he
      simp [heq] at hm₂
    have hentry : ∀ m', m' ∈ live.filter (fun x => x.path ≠ m.path) →
        Function.update s.table m.id ⟨none, none, none⟩ m'.id
          = ⟨some m'.path, m'.inode, some m'.sb⟩ := by
      intro m' hm'
      obtain ⟨hm₁, hm₂⟩ := hmem m' hm'
      rw [Function.update_of_ne hm₂, h.entry m' hm₁]
    have hunused : ∀ id, (∀ m' ∈ live.filter (fun x => x.path ≠ m.path), m'.id ≠ id) →
        (Function.update s.table m.id ⟨none, none, none⟩ id).path = none := by
      intro id hid
      by_cases hm' : id = m.id
      · rw [hm', Function.update_self]
      · rw [Function.update_of_ne hm']
        refine h.unused id fun m₁ hm₁ he => ?_
        refine hid m₁ (List.mem_filter.mpr ⟨hm₁, ?_⟩) he
        have hne : m₁.path ≠ m.path := by
          intro hp
          have heq : m₁ = m := List.inj_on_of_nodup_map hpaths hm₁ hm hp
          exact hm' (heq ▸ he.symm)
        simpa using hne
    refine ⟨?_, hentry, hunused, ?_, ?_, fun m' hm' => h.id_lt m' (hmem m' hm').1⟩
    · exact h.ids.sublist (List.filter_sublist.map Mount.id)
    · intro m' hm'
      by_contra hge
      have hfree := hnone m'.id (Nat.le_of_not_lt hge) (h.lt_max m' (hmem m' hm').1)
      rw [hentry m' hm'] at hfree
      exact absurd hfree (by simp)
    · refine hused.imp_right ?_
      rintro ⟨i, hi, hne⟩
      by_contra hno
      refine hne (hunused i fun m' hm' he => hno ⟨m', hm', ?_⟩)
      rw [he]
      exact hi
  · have hneg : (-enoent : Int) < 0 := by decide
    rw [vfsMountUnregister, hr] at hun
    simp only [Option.bind_eq_bind, Option.bind_some, hneg, if_true, Option.some.injEq,
      Prod.mk.injEq] at hun
    rw [← hun.2, List.filter_eq_self.mpr fun m hm => by simpa using hno m hm]
    exact h

/-! ## Runs -/

theorem mountsInv_start (mntId : SbPtr → Int) :
    MountsInv ⟨fun _ => ⟨none, none, none⟩, 0, mntId⟩ [] where
  ids := List.nodup_nil
  entry m hm := absurd hm (by simp)
  unused _ _ := rfl
  lt_max m hm := absurd hm (by simp)
  max_used := .inl rfl
  id_lt m hm := absurd hm (by simp)

theorem MountRun.inv (h : MountRun mntId s live) :
    MountsInv s live ∧ (live.map Mount.path).Nodup := by
  induction h with
  | start => exact ⟨mountsInv_start mntId, List.nodup_nil⟩
  | @register s s' live path inode sb id _ hnew hreg ih =>
    obtain ⟨hinv, hpaths⟩ := ih
    constructor
    · rcases hinv.register path inode sb with ⟨-, heq⟩ | ⟨id', s₁, heq, hinv'⟩
      · rw [hreg, Prod.mk.injEq] at heq
        have henospc : enospc = 13 := rfl
        omega
      · rw [hreg, Prod.mk.injEq] at heq
        obtain ⟨hid, rfl⟩ := heq
        obtain rfl : id = id' := by omega
        exact hinv'
    · simp only [List.map_append, List.map_cons, List.map_nil]
      refine hpaths.append (List.nodup_singleton path) ?_
      intro p hp hp'
      obtain ⟨m, hm, rfl⟩ := List.mem_map.mp hp
      exact hnew m hm (List.mem_singleton.mp hp')
  | @registerFails s s' live path inode sb err _ _ hreg hneg ih =>
    refine ⟨?_, ih.2⟩
    rcases ih.1.register path inode sb with ⟨-, heq⟩ | ⟨id', s₁, heq, -⟩
    · rw [hreg, Prod.mk.injEq] at heq
      rw [heq.2]
      exact ih.1
    · rw [hreg, Prod.mk.injEq] at heq
      omega
  | unregister _ hun ih =>
    exact ⟨ih.1.unregister ih.2 hun, ih.2.sublist (List.filter_sublist.map Mount.path)⟩

/-- In every state of a run the live mounts are in their entries under the mark; a
search is right exactly when no unused entry comes before its end, and a
registration fails too early exactly when `VFS_FILESYSTEM_MAX` mounts are live. -/
theorem mountRun_ok (h : MountRun mntId s live) :
    MountsOk s live ∧ (∀ path, LookupRight s live path ↔ NoHoleBefore s path) ∧
    ∀ path inode sb, RegisterRight s live path inode sb ↔ live.length ≠ vfsFilesystemMax := by
  obtain ⟨hinv, -⟩ := h.inv
  exact ⟨hinv.ok, fun _ => hinv.lookup_iff, fun _ _ _ => hinv.register_iff⟩

end

/-! ## Two mounts, and eight -/

theorem letter_nonzero (n : Fin 26) : ∀ c ∈ [slash, BitVec.ofNat 8 (97 + n)], c ≠ 0 := by
  intro c hc
  rcases List.mem_pair.mp hc with rfl | rfl
  · decide
  · intro hzero
    have hcode : (97 + n.val) % 2 ^ 8 = 0 := congrArg BitVec.toNat hzero
    omega

/-- `"/a"`, `"/b"`, ...: one letter after the slash. -/
def letterPath (n : Fin 26) : CStr :=
  ⟨[slash, BitVec.ofNat 8 (97 + n)], letter_nonzero n⟩

theorem letterPath_inj {i j : Fin 26} (h : letterPath i = letterPath j) : i = j := by
  have hchars : [slash, BitVec.ofNat 8 (97 + i)] = [slash, BitVec.ofNat 8 (97 + j)] :=
    congrArg CStr.chars h
  obtain ⟨hletter, -⟩ := List.cons.inj (List.cons.inj hchars).2
  have hcode := congrArg BitVec.toNat hletter
  rw [BitVec.toNat_ofNat, BitVec.toNat_ofNat] at hcode
  exact Fin.ext (by omega)

/-- The first `n` of these paths are mounted. -/
def letterMounts : Nat → Mounts
  | 0 => ⟨fun _ => ⟨none, none, none⟩, 0, fun _ => -1⟩
  | n + 1 => (vfsMountRegister (letterMounts n) (letterPath (Fin.ofNat 26 n)) none n).2

theorem mountRun_letters : ∀ n, n ≤ vfsFilesystemMax → ∃ live,
    MountRun (fun _ => -1) (letterMounts n) live ∧
      live.map Mount.path = (List.range n).map fun i => letterPath (Fin.ofNat 26 i) := by
  intro n
  induction n with
  | zero => exact fun _ => ⟨[], .start, rfl⟩
  | succ n ih =>
    intro hle
    have hmax : vfsFilesystemMax = 8 := rfl
    obtain ⟨live, hrun, hpaths⟩ := ih (by omega)
    have hlen := congrArg List.length hpaths
    simp only [List.length_map, List.length_range] at hlen
    have hnew : ∀ m ∈ live, m.path ≠ letterPath (Fin.ofNat 26 n) := by
      intro m hm he
      have hmem := List.mem_map_of_mem (f := Mount.path) hm
      rw [hpaths, he] at hmem
      obtain ⟨i, hi, heq⟩ := List.mem_map.mp hmem
      have hlt := List.mem_range.mp hi
      have hij := congrArg Fin.val (letterPath_inj heq)
      simp only [Fin.val_ofNat] at hij
      omega
    rcases hrun.inv.1.register (letterPath (Fin.ofNat 26 n)) none n with ⟨hfull, -⟩ |
      ⟨id, s', heq, -⟩
    · omega
    · have hs' : letterMounts (n + 1) = s' := by rw [letterMounts, heq]
      refine ⟨_, hs' ▸ hrun.register hnew heq, ?_⟩
      simp only [List.map_append, hpaths, List.range_succ, List.map_cons, List.map_nil]

/-- In a table with one mount every search and every registration is right. -/
theorem mountRun_ok_oneMount : ∃ live, MountsOk (letterMounts 1) live ∧
    (∀ path, LookupRight (letterMounts 1) live path) ∧
    RegisterRight (letterMounts 1) live (letterPath 1) none 1 := by
  obtain ⟨live, hrun, hpaths⟩ := mountRun_letters 1 (by decide)
  obtain ⟨hok, hlookup, hregister⟩ := mountRun_ok hrun
  refine ⟨live, hok, fun path => (hlookup path).mpr ?_, (hregister _ _ _).mpr ?_⟩
  · have hall : ∀ id, id < (letterMounts 1).max → vfsMountPathGet (letterMounts 1) id ≠ none := by
      decide +kernel
    exact fun id hid hnone => absurd hnone (hall id hid)
  · have hlen := congrArg List.length hpaths
    simp only [List.length_map, List.length_range] at hlen
    rw [hlen]
    decide

/-- After the first of two mounts is gone, the search for the second compares with
the `NULL` path of its entry; and with eight mounts a ninth is refused. -/
theorem mount_hole_and_ninth :
    (¬ ∀ (s : Mounts) (live : List Mount), MountRun (fun _ => -1) s live →
      ∀ path, LookupRight s live path) ∧
    ¬ ∀ (s : Mounts) (live : List Mount), MountRun (fun _ => -1) s live →
      ∀ path inode sb, (∀ m ∈ live, m.path ≠ path) → RegisterRight s live path inode sb := by
  constructor
  · intro hall
    obtain ⟨live, hrun, -⟩ := mountRun_letters 2 (by decide)
    obtain ⟨⟨sb, s'⟩, hun⟩ := Option.isSome_iff_exists.mp
      (show (vfsMountUnregister (letterMounts 2) (letterPath 0)).isSome by decide +kernel)
    have hnull : ((vfsMountUnregister (letterMounts 2) (letterPath 0)).bind
        fun r => vfsMountLookup r.2 (letterPath 1)) = none := by
      decide +kernel
    obtain ⟨r, hr, -⟩ := hall _ _ (hrun.unregister hun) (letterPath 1)
    rw [hun, Option.bind_some, hr] at hnull
    exact absurd hnull (by simp)
  · intro hall
    obtain ⟨live, hrun, hpaths⟩ := mountRun_letters 8 (by decide)
    have hlen := congrArg List.length hpaths
    simp only [List.length_map, List.length_range] at hlen
    refine hrun.inv.1.register_iff.mp (hall _ _ hrun (letterPath 8) none 8 ?_) hlen
    intro m hm he
    have hmem := List.mem_map_of_mem (f := Mount.path) hm
    rw [hpaths, he] at hmem
    exact absurd hmem (by decide)

end Ko6.Fs
