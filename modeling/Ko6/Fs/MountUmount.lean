import Ko6.Fs.MountResolve

set_option autoImplicit false

/-!
# Fs: refused unmounts

`vfs_umount` erases the entry of a path before it asks the file system to unmount.
`vfs_mount` undoes its first half when the second fails; `vfs_umount` does not, so a
file system that refuses leaves the table without its mount.
`vfsUmount_atomic_iff` tells for which tables, file systems and paths an error
leaves everything as it was.
-/

namespace Ko6.Fs

open Ko6.Lib Ko6.Common

/-! ## Model -/

/-- `ENOSYS`, the last of the codes. -/
def enosys : Int := 27

/-- `EINVAL`, as an `errno_t`. -/
def einvalErrno : Int := 7

/-- `vfs_fs_type_t`: whether `mount` is there, and `unmount` by what it returns. -/
structure VfsFsType where
  mount : Bool
  unmount : Option (SbPtr → Int)

section
variable (ops : SbPtr → Option VfsFsType)

/-- `vfs_kern_unmount`, on the field `ops` of the superblocks.  It tests `mount` and
calls `unmount`; `none` when that is a call of `NULL`. -/
def vfsKernUnmount (sb : Option SbPtr) : Option Int :=
  match sb with
  | none => some (-einvalErrno)
  | some sb =>
    match ops sb with
    | none => some (-einvalErrno)
    | some fs => if fs.mount then fs.unmount.map fun unmount => unmount sb else some (-einvalErrno)

/-- `vfs_umount`. -/
def vfsUmount (s : Mounts) (path : CStr) : Option (Int × Mounts) := do
  let (sb, s) ← vfsMountUnregister s path
  let ret ← vfsKernUnmount ops sb
  some (ret, s)

end

/-- `fs1_unmount`. -/
def fs1Unmount (_sb : SbPtr) : Int := -enosys

/-- `fs1_ops`. -/
def fs1Ops : VfsFsType := ⟨true, some fs1Unmount⟩

/-! ## What an error leaves -/

/-- An error of `vfs_umount` leaves the table, `Vfs_mount_max` and every `mnt_id`,
and so the answers of the searches. -/
def UmountAtomic (ops : SbPtr → Option VfsFsType) (s : Mounts) (path : CStr) : Prop :=
  ∀ ret s', vfsUmount ops s path = some (ret, s') → ret < 0 →
    s' = s ∧ ∀ q, vfsMountLookup s' q = vfsMountLookup s q ∧
      vfsMountResolve s' q = vfsMountResolve s q

/-- The file system of a superblock agrees to unmount it. -/
def Unmounts (ops : SbPtr → Option VfsFsType) (sb : SbPtr) : Prop :=
  ∃ fs, ops sb = some fs ∧ fs.mount = true ∧ ∀ unmount, fs.unmount = some unmount → 0 ≤ unmount sb

/-- The superblock of the first entry with this path. -/
def FoundAt (s : Mounts) (path : CStr) (sb : SbPtr) : Prop :=
  ∃ id : Nat, vfsMountLookup s path = some (id : Int) ∧ vfsMountSbGet s id = some sb

section
variable {s s' : Mounts} {path : CStr} {sb : SbPtr} {ops : SbPtr → Option VfsFsType} {id : Nat}
  {ret : Int}

/-- The id that a search returns is that of an entry with the path. -/
theorem vfsMountLookup_path (h : vfsMountLookup s path = some (id : Int)) :
    vfsMountPathGet s id = some path := by
  unfold vfsMountLookup at h
  rcases vfsMountLookupFrom_cases s path s.max 0 with ⟨j, -, -, heq, hj, -⟩ | ⟨heq, -⟩ | ⟨heq, -⟩
  · rw [heq, Option.some.injEq, Nat.cast_inj] at h
    rw [← h]
    exact hj
  · rw [heq, Option.some.injEq, show enoent = 16 from rfl] at h
    omega
  · rw [heq] at h
    exact absurd h (by simp)

/-- A failed search changes nothing. -/
theorem vfsMountUnregister_missing (h : vfsMountLookup s path = some ret) (hneg : ret < 0) :
    vfsMountUnregister s path = some (none, s) := by
  rw [vfsMountUnregister, h, Option.bind_eq_bind, Option.bind_some, if_pos hneg]

/-- A successful one erases the entry. -/
theorem vfsMountUnregister_found (h : vfsMountLookup s path = some (id : Int))
    (hsb : vfsMountSbGet s id = some sb) :
    ∃ s', vfsMountUnregister s path = some (some sb, s') ∧ (s'.table id).path = none := by
  have hlt : id < s.max := by
    by_contra hge
    rw [vfsMountSbGet, if_neg hge] at hsb
    exact absurd hsb (by simp)
  have hnot : ¬ ((id : Int) < 0) := by omega
  rw [vfsMountUnregister, h, Option.bind_eq_bind, Option.bind_some, if_neg hnot]
  simp only [Int.toNat_natCast, hsb]
  refine ⟨_, rfl, ?_⟩
  simp only [vfsMountPathSet, vfsMountInodeSet, vfsMountSbSet, Mounts.setEntry, hlt, if_true,
    vfsMountUpdateMax, Nat.not_le.mpr hlt, if_false, Function.update_self]

/-- An entry without a superblock: `vfs_mount_unregister` writes to `NULL`. -/
theorem vfsMountUnregister_null (h : vfsMountLookup s path = some (id : Int))
    (hsb : vfsMountSbGet s id = none) : vfsMountUnregister s path = none := by
  have hnot : ¬ ((id : Int) < 0) := by omega
  rw [vfsMountUnregister, h, Option.bind_eq_bind, Option.bind_some, if_neg hnot]
  simp only [Int.toNat_natCast, hsb]

/-- `vfs_kern_unmount` of a superblock returns no error exactly when its file system
agrees, or jumps to `NULL`. -/
theorem vfsKernUnmount_iff :
    (∀ ret, vfsKernUnmount ops (some sb) = some ret → 0 ≤ ret) ↔ Unmounts ops sb := by
  unfold Unmounts
  have herr : ¬ (0 : Int) ≤ -einvalErrno := by decide
  cases hops : ops sb with
  | none =>
    simp only [vfsKernUnmount, hops]
    exact ⟨fun h => absurd (h _ rfl) herr, fun ⟨fs, hfs, _⟩ => absurd hfs (by simp)⟩
  | some fs =>
    cases hmount : fs.mount with
    | false =>
      simp only [vfsKernUnmount, hops, hmount, Bool.false_eq_true, if_false]
      refine ⟨fun h => absurd (h _ rfl) herr, ?_⟩
      rintro ⟨fs', hfs, htrue, -⟩
      rw [Option.some.injEq] at hfs
      rw [← hfs, hmount] at htrue
      exact absurd htrue (by simp)
    | true =>
      simp only [vfsKernUnmount, hops, hmount, if_true, Option.map_eq_some_iff]
      constructor
      · exact fun h => ⟨fs, rfl, hmount, fun unmount hun => h _ ⟨unmount, hun, rfl⟩⟩
      · rintro ⟨fs', hfs, -, hall⟩ ret ⟨unmount, hun, rfl⟩
        rw [Option.some.injEq] at hfs
        exact hall unmount (hfs ▸ hun)

/-- A path without a mount: `-EINVAL`, and nothing has changed. -/
theorem UmountAtomic.of_missing (h : ∀ sb, ¬ FoundAt s path sb) : UmountAtomic ops s path := by
  intro ret s' hun _
  obtain ⟨⟨sb, s₁⟩, hreg, hkern⟩ := Option.bind_eq_some_iff.mp hun
  have hs : s₁ = s := by
    cases hlook : vfsMountLookup s path with
    | none =>
      rw [vfsMountUnregister, hlook] at hreg
      exact absurd hreg (by simp)
    | some r =>
      by_cases hneg : r < 0
      · rw [vfsMountUnregister_missing hlook hneg, Option.some.injEq, Prod.mk.injEq] at hreg
        exact hreg.2.symm
      · obtain ⟨id, rfl⟩ := Int.eq_ofNat_of_zero_le (Int.not_lt.mp hneg)
        cases hsb : vfsMountSbGet s id with
        | none =>
          rw [vfsMountUnregister_null hlook hsb] at hreg
          exact absurd hreg (by simp)
        | some sb' => exact absurd ⟨id, hlook, hsb⟩ (h sb')
  obtain ⟨ret', -, heq⟩ := Option.bind_eq_some_iff.mp hkern
  rw [Option.some.injEq, Prod.mk.injEq] at heq
  obtain rfl : s = s' := hs.symm.trans heq.2
  exact ⟨rfl, fun q => ⟨rfl, rfl⟩⟩

/-- A mounted path: the entry is gone whatever the file system answers. -/
theorem umountAtomic_mounted_iff (h : FoundAt s path sb) :
    UmountAtomic ops s path ↔ ∀ ret, vfsKernUnmount ops (some sb) = some ret → 0 ≤ ret := by
  obtain ⟨id, hlook, hsb⟩ := h
  obtain ⟨s₁, hreg, hgone⟩ := vfsMountUnregister_found hlook hsb
  have hrun : ∀ ret, vfsKernUnmount ops (some sb) = some ret →
      vfsUmount ops s path = some (ret, s₁) := by
    intro ret hkern
    simp only [vfsUmount, hreg, Option.bind_eq_bind, Option.bind_some, hkern]
  have hne : s₁ ≠ s := by
    rintro rfl
    have hpath := vfsMountLookup_path hlook
    rw [vfsMountPathGet] at hpath
    split at hpath
    · rw [hgone] at hpath
      exact absurd hpath (by simp)
    · exact absurd hpath (by simp)
  constructor
  · intro hatomic ret hkern
    by_contra hneg
    exact hne (hatomic ret s₁ (hrun ret hkern) (by omega)).1
  · intro hok ret s' hun hneg
    cases hkern : vfsKernUnmount ops (some sb) with
    | none =>
      simp only [vfsUmount, hreg, Option.bind_eq_bind, Option.bind_some, hkern] at hun
      exact absurd hun (by simp)
    | some ret' =>
      have hle := hok ret' hkern
      rw [hrun ret' hkern, Option.some.injEq, Prod.mk.injEq] at hun
      omega

end

/-- An error leaves everything as it was exactly when the file system mounted at the
path, if there is one, agrees to unmount. -/
theorem vfsUmount_atomic_iff (ops : SbPtr → Option VfsFsType) (s : Mounts) (path : CStr) :
    UmountAtomic ops s path ↔ ∀ sb, FoundAt s path sb → Unmounts ops sb := by
  constructor
  · intro hatomic sb hat
    exact vfsKernUnmount_iff.mp ((umountAtomic_mounted_iff hat).mp hatomic)
  · intro hall
    by_cases hat : ∃ sb, FoundAt s path sb
    · obtain ⟨sb, hat⟩ := hat
      exact (umountAtomic_mounted_iff hat).mpr (vfsKernUnmount_iff.mpr (hall sb hat))
    · exact .of_missing fun sb h => hat ⟨sb, h⟩

/-- fs1 never unmounts: no `vfs_umount` of an fs1 mount is atomic. -/
theorem fs1_umount_not_atomic {ops : SbPtr → Option VfsFsType} {s : Mounts} {path : CStr}
    {sb : SbPtr} (hops : ops sb = some fs1Ops) (h : FoundAt s path sb) :
    ¬ UmountAtomic ops s path := by
  rw [umountAtomic_mounted_iff h]
  intro hall
  have hkern : vfsKernUnmount ops (some sb) = some (-enosys) := by
    simp only [vfsKernUnmount, hops]
    rfl
  exact absurd (hall _ hkern) (by decide)

/-- An fs1 volume at `/a` answers `-ENOSYS`, and `/a` is no longer found. -/
theorem vfsUmount_fs1_forgets : ¬ ∀ ops s path, UmountAtomic ops s path := by
  intro hall
  have hrun : (vfsUmount (fun _ => some fs1Ops) (letterMounts 1) (letterPath 0)).map
      (fun r => (r.1, vfsMountLookup r.2 (letterPath 0))) = some (-27, some (-16)) := by
    decide +kernel
  obtain ⟨⟨ret, s'⟩, hun, heq⟩ := Option.map_eq_some_iff.mp hrun
  rw [Prod.mk.injEq] at heq
  obtain ⟨hret, hgone⟩ := heq
  obtain ⟨hs, -⟩ := hall _ _ _ ret s' hun (by simp only at hret; omega)
  have hfound : vfsMountLookup (letterMounts 1) (letterPath 0) = some 0 := by decide +kernel
  simp only [hs, hfound, Option.some.injEq] at hgone
  omega

end Ko6.Fs
