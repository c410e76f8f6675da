import Ko6.Fs.Mount

set_option autoImplicit false

/-!
# Fs: the mount that covers a path

`vfs_mount_resolve` keeps the longest registered path that is a prefix of the
given one and is followed there by a slash or by the end.  The path `/` ends with
the separator itself, so what follows it is the first letter of a component: it is
accepted for `/` alone and for a path that begins with two slashes.
`vfsMountResolve_right_iff` tells for which tables and paths the result is the
mount that covers the path.
-/

namespace Ko6.Fs

open Ko6.Lib Ko6.Common

/-! ## Model -/

/-- The test of the loop of `vfs_mount_resolve`: the path begins with `mnt` and is
not badly cut. -/
def CutsAt (mnt path : CStr) : Prop :=
  strncmp path.byte mnt.byte (strlen mnt) = 0 ∧
    (path.byte (strlen mnt) = slash ∨ path.byte (strlen mnt) = 0)

instance (mnt path : CStr) : Decidable (CutsAt mnt path) := inferInstanceAs (Decidable (_ ∧ _))

/-- The loop body of `vfs_mount_resolve`, on `best_sb` and `best_len`. -/
def vfsMountResolveStep (s : Mounts) (path : CStr) (best : Option SbPtr × Int) (id : Nat) :
    Option SbPtr × Int :=
  match vfsMountPathGet s id, vfsMountSbGet s id with
  | some mnt, some sb =>
    if best.2 < strlen mnt ∧ CutsAt mnt path then (some sb, strlen mnt) else best
  | _, _ => best

/-- `vfs_mount_resolve`. -/
def vfsMountResolve (s : Mounts) (path : CStr) : Option SbPtr :=
  if path.byte 0 ≠ slash then none
  else ((List.range s.max).foldl (vfsMountResolveStep s path) (none, -1)).1

/-! ## The mount of a path -/

/-- `"/"`. -/
def rootPath : CStr := ⟨[slash], by decide⟩

/-- A superblock is registered under a path. -/
def Registered (s : Mounts) (mnt : CStr) (sb : SbPtr) : Prop :=
  ∃ id, vfsMountPathGet s id = some mnt ∧ vfsMountSbGet s id = some sb

/-- `mnt` is a prefix of the absolute path on component boundaries. -/
def Covers (mnt path : CStr) : Prop :=
  mnt = rootPath ∨ mnt.chars <+: path.chars ∧
    (path.byte (strlen mnt) = slash ∨ strlen path = strlen mnt)

/-- The superblock of the longest mount that covers the path, or `NULL` when none
does. -/
def Resolves (s : Mounts) (path : CStr) : Option SbPtr → Prop
  | some sb => ∃ mnt, Registered s mnt sb ∧ Covers mnt path ∧
      ∀ mnt' sb', Registered s mnt' sb' → Covers mnt' path → strlen mnt' ≤ strlen mnt
  | none => ∀ mnt sb, Registered s mnt sb → ¬ Covers mnt path

section
variable {s : Mounts} {path mnt mnt' : CStr} {sb sb' : SbPtr}

theorem registered_lt (h : Registered s mnt sb) :
    ∃ id, id < s.max ∧ vfsMountPathGet s id = some mnt ∧ vfsMountSbGet s id = some sb := by
  obtain ⟨id, hpath, hsb⟩ := h
  refine ⟨id, ?_, hpath, hsb⟩
  by_contra hge
  rw [vfsMountPathGet, if_neg hge] at hpath
  exact absurd hpath (by simp)

theorem cutsAt_iff : CutsAt mnt path ↔ mnt.chars <+: path.chars ∧
    (path.byte (strlen mnt) = slash ∨ strlen path = strlen mnt) := by
  unfold CutsAt
  rw [strncmp_prefix_iff]
  refine and_congr_right fun hpre => or_congr_right ?_
  have hle := hpre.length_le
  rw [path.byte_eq_zero_iff]
  unfold strlen
  omega

theorem covers_iff (hne : mnt ≠ rootPath) : Covers mnt path ↔ CutsAt mnt path := by
  unfold Covers
  rw [cutsAt_iff, or_iff_right hne]

/-- An absolute path begins with `/`. -/
theorem root_isPrefix (habs : path.byte 0 = slash) : rootPath.chars <+: path.chars := by
  obtain ⟨chars, hnz⟩ := path
  cases chars with
  | nil =>
    have h0 : (0 : BitVec 8) = slash := habs
    exact absurd h0 (by decide)
  | cons c rest =>
    have hc : c = slash := habs
    subst hc
    exact ⟨rest, rfl⟩

/-- The test on `/`. -/
theorem cutsAt_root (habs : path.byte 0 = slash) :
    CutsAt rootPath path ↔ path = rootPath ∨ path.byte 1 = slash := by
  rw [cutsAt_iff, and_iff_right (root_isPrefix habs), or_comm]
  refine or_congr_left ?_
  obtain ⟨rest, hrest⟩ := root_isPrefix habs
  obtain ⟨chars, hnz⟩ := path
  obtain rfl : slash :: rest = chars := hrest
  unfold strlen rootPath
  simp only [List.length_cons, List.length_nil, CStr.mk.injEq, List.cons.injEq, true_and]
  rw [← List.length_eq_zero_iff]
  omega

/-- The entry is a mount that passes the test. -/
def Candidate (s : Mounts) (path : CStr) (id : Nat) (mnt : CStr) (sb : SbPtr) : Prop :=
  vfsMountPathGet s id = some mnt ∧ vfsMountSbGet s id = some sb ∧ CutsAt mnt path

/-- The loop body takes a longer candidate, or the entry has none. -/
theorem vfsMountResolveStep_cases (s : Mounts) (path : CStr) (best : Option SbPtr × Int)
    (id : Nat) :
    (∃ mnt sb, Candidate s path id mnt sb ∧ best.2 < strlen mnt ∧
      vfsMountResolveStep s path best id = (some sb, (strlen mnt : Int))) ∨
    (vfsMountResolveStep s path best id = best ∧
      ∀ mnt sb, Candidate s path id mnt sb → (strlen mnt : Int) ≤ best.2) := by
  unfold vfsMountResolveStep Candidate
  cases hpath : vfsMountPathGet s id with
  | none => exact .inr ⟨rfl, fun mnt sb hc => by simp at hc⟩
  | some mnt =>
    cases hsb : vfsMountSbGet s id with
    | none => exact .inr ⟨rfl, fun mnt sb hc => by simp at hc⟩
    | some sb =>
      by_cases htest : best.2 < strlen mnt ∧ CutsAt mnt path
      · exact .inl ⟨mnt, sb, ⟨rfl, rfl, htest.2⟩, htest.1, if_pos htest⟩
      · refine .inr ⟨if_neg htest, ?_⟩
        rintro mnt' sb' ⟨hmnt', -, hcut⟩
        rw [Option.some.injEq] at hmnt'
        rw [← hmnt'] at hcut ⊢
        by_contra hlt
        exact htest ⟨by omega, hcut⟩

/-- What the loop has found after `n` entries: nothing, or the first of the longest
candidates. -/
theorem vfsMountResolve_loop (s : Mounts) (path : CStr) : ∀ n,
    ((List.range n).foldl (vfsMountResolveStep s path) (none, -1) = (none, -1) ∧
      ∀ id mnt sb, id < n → ¬ Candidate s path id mnt sb) ∨
    ∃ id mnt sb, id < n ∧ Candidate s path id mnt sb ∧
      (List.range n).foldl (vfsMountResolveStep s path) (none, -1)
        = (some sb, (strlen mnt : Int)) ∧
      (∀ id' mnt' sb', id' < n → Candidate s path id' mnt' sb' → strlen mnt' ≤ strlen mnt) ∧
      ∀ id' mnt' sb', id' < id → Candidate s path id' mnt' sb' → strlen mnt' < strlen mnt := by
  intro n
  induction n with
  | zero => exact .inl ⟨rfl, fun id _ _ hid => absurd hid (Nat.not_lt_zero id)⟩
  | succ n ih =>
    rw [List.range_succ, List.foldl_append, List.foldl_cons, List.foldl_nil]
    rcases ih with ⟨heq, hnone⟩ | ⟨id, mnt, sb, hid, hcand, heq, hmax, hfirst⟩
    · rw [heq]
      rcases vfsMountResolveStep_cases s path (none, -1) n with
        ⟨mnt, sb, hcand, -, hstep⟩ | ⟨hstep, hle⟩
      · right
        refine ⟨n, mnt, sb, Nat.lt_succ_self n, hcand, hstep, fun id' mnt' sb' hid' hcand' => ?_,
          fun id' mnt' sb' hid' hcand' => absurd hcand' (hnone id' mnt' sb' hid')⟩
        rcases Nat.lt_succ_iff_lt_or_eq.mp hid' with hlt | rfl
        · exact absurd hcand' (hnone id' mnt' sb' hlt)
        · have hmnt := hcand'.1.symm.trans hcand.1
          rw [Option.some.injEq] at hmnt
          rw [hmnt]
      · left
        refine ⟨hstep, fun id mnt sb hid hcand => ?_⟩
        rcases Nat.lt_succ_iff_lt_or_eq.mp hid with hlt | rfl
        · exact hnone id mnt sb hlt hcand
        · have := hle mnt sb hcand
          simp only at this
          omega
    · right
      rw [heq]
      rcases vfsMountResolveStep_cases s path (some sb, (strlen mnt : Int)) n with
        ⟨mnt₁, sb₁, hcand₁, hlonger, hstep⟩ | ⟨hstep, hle⟩
      · simp only at hlonger
        refine ⟨n, mnt₁, sb₁, Nat.lt_succ_self n, hcand₁, hstep, fun id' mnt' sb' hid' hcand' => ?_,
          fun id' mnt' sb' hid' hcand' => ?_⟩
        · rcases Nat.lt_succ_iff_lt_or_eq.mp hid' with hlt | rfl
          · have := hmax id' mnt' sb' hlt hcand'
            omega
          · have hmnt := hcand'.1.symm.trans hcand₁.1
            rw [Option.some.injEq] at hmnt
            rw [hmnt]
        · have := hmax id' mnt' sb' hid' hcand'
          omega
      · refine ⟨id, mnt, sb, Nat.lt_succ_of_lt hid, hcand, hstep,
          fun id' mnt' sb' hid' hcand' => ?_, hfirst⟩
        rcases Nat.lt_succ_iff_lt_or_eq.mp hid' with hlt | rfl
        · exact hmax id' mnt' sb' hlt hcand'
        · have := hle mnt' sb' hcand'
          simp only at this
          omega

/-- The first superblock that is registered under a path. -/
def MountedAt (s : Mounts) (mnt : CStr) (sb : SbPtr) : Prop :=
  ∃ id, vfsMountPathGet s id = some mnt ∧ vfsMountSbGet s id = some sb ∧
    ∀ id', id' < id → vfsMountPathGet s id' = some mnt → vfsMountSbGet s id' = none

theorem MountedAt.registered (h : MountedAt s mnt sb) : Registered s mnt sb := by
  obtain ⟨id, hmnt, hsb, -⟩ := h
  exact ⟨id, hmnt, hsb⟩

theorem MountedAt.unique (h : MountedAt s mnt sb) (h' : MountedAt s mnt sb') : sb = sb' := by
  obtain ⟨id, hmnt, hsb, hfirst⟩ := h
  obtain ⟨id', hmnt', hsb', hfirst'⟩ := h'
  rcases Nat.lt_trichotomy id id' with hlt | rfl | hlt
  · exact absurd (hsb.symm.trans (hfirst' id hlt hmnt)) (by simp)
  · exact Option.some.inj (hsb.symm.trans hsb')
  · exact absurd (hsb'.symm.trans (hfirst id' hlt hmnt')) (by simp)

/-- `vfs_mount_resolve` of an absolute path: the longest registered path that passes
the test. -/
theorem vfsMountResolve_spec (habs : path.byte 0 = slash) :
    (vfsMountResolve s path = none ∧ ∀ mnt sb, Registered s mnt sb → ¬ CutsAt mnt path) ∨
    ∃ mnt sb, vfsMountResolve s path = some sb ∧ MountedAt s mnt sb ∧ CutsAt mnt path ∧
      ∀ mnt' sb', Registered s mnt' sb' → CutsAt mnt' path → strlen mnt' ≤ strlen mnt := by
  unfold vfsMountResolve
  rw [if_neg (not_not.mpr habs)]
  rcases vfsMountResolve_loop s path s.max with ⟨heq, hnone⟩ |
    ⟨id, mnt, sb, -, ⟨hmnt, hsb, hcut⟩, heq, hmax, hfirst⟩
  · rw [heq]
    refine .inl ⟨rfl, fun mnt sb hreg hcut => ?_⟩
    obtain ⟨id, hid, hmnt, hsb⟩ := registered_lt hreg
    exact hnone id mnt sb hid ⟨hmnt, hsb, hcut⟩
  · rw [heq]
    refine .inr ⟨mnt, sb, rfl, ⟨id, hmnt, hsb, fun id' hid' hmnt' => ?_⟩, hcut,
      fun mnt' sb' hreg hcut' => ?_⟩
    · -- another superblock of this path would have been taken first
      cases hsb' : vfsMountSbGet s id' with
      | none => rfl
      | some sb' =>
        exact absurd (hfirst id' mnt sb' hid' ⟨hmnt', hsb', hcut⟩) (Nat.lt_irrefl _)
    · obtain ⟨id', hid', hmnt', hsb'⟩ := registered_lt hreg
      exact hmax id' mnt' sb' hid' ⟨hmnt', hsb', hcut'⟩

/-- For the root mount alone the test and the covering differ. -/
def RootReached (s : Mounts) (path : CStr) : Prop :=
  (∃ sb, Registered s rootPath sb) → path = rootPath ∨ path.byte 1 = slash ∨
    ∃ mnt sb, Registered s mnt sb ∧ mnt ≠ rootPath ∧ Covers mnt path

/-- A registered path that passes the test. -/
theorem rootReached_of_cuts (habs : path.byte 0 = slash) (hreg : Registered s mnt sb)
    (hcut : CutsAt mnt path) : RootReached s path := by
  intro _
  by_cases hne : mnt = rootPath
  · subst hne
    exact ((cutsAt_root habs).mp hcut).imp_right .inl
  · exact .inr (.inr ⟨mnt, sb, hreg, hne, (covers_iff hne).mpr hcut⟩)

/-- No registered absolute path is shorter than `/`. -/
theorem strlen_root_le (h : mnt.byte 0 = slash) : strlen rootPath ≤ strlen mnt := by
  by_contra hlt
  have hempty : mnt.byte 0 = 0 := by
    rw [mnt.byte_eq_zero_iff]
    have hone : strlen rootPath = 1 := rfl
    unfold strlen at hlt hone
    omega
  rw [h] at hempty
  exact absurd hempty (by decide)

/-- The result is the mount of the path exactly when the root mount is not needed, or
the path is `/` or begins with two slashes. -/
theorem vfsMountResolve_right_iff (habs : path.byte 0 = slash)
    (hmnt : ∀ mnt sb, Registered s mnt sb → mnt.byte 0 = slash) :
    Resolves s path (vfsMountResolve s path) ↔ RootReached s path := by
  rcases vfsMountResolve_spec (s := s) habs with ⟨heq, hnone⟩ | ⟨mnt, sb, heq, hreg, hcut, hmax⟩
  · rw [heq]
    constructor
    · rintro hres ⟨sb, hroot⟩
      exact absurd (.inl rfl) (hres rootPath sb hroot)
    · intro hreach mnt sb hreg hcov
      by_cases hne : mnt = rootPath
      · subst hne
        rcases hreach ⟨sb, hreg⟩ with hp | hp | ⟨mnt', sb', hreg', hne', hcov'⟩
        · exact hnone _ sb hreg ((cutsAt_root habs).mpr (.inl hp))
        · exact hnone _ sb hreg ((cutsAt_root habs).mpr (.inr hp))
        · exact hnone mnt' sb' hreg' ((covers_iff hne').mp hcov')
      · exact hnone mnt sb hreg ((covers_iff hne).mp hcov)
  · rw [heq]
    constructor
    · exact fun _ => rootReached_of_cuts habs hreg.registered hcut
    · intro _
      refine ⟨mnt, hreg.registered, .inr (cutsAt_iff.mp hcut), fun mnt' sb' hreg' hcov' => ?_⟩
      by_cases hne : mnt' = rootPath
      · rw [hne]
        exact strlen_root_le (hmnt mnt sb hreg.registered)
      · exact hmax mnt' sb' hreg' ((covers_iff hne).mp hcov')

/-- `mnt` is the longest mount that covers the path, and `sb` is mounted there. -/
structure IsMountOf (s : Mounts) (path mnt : CStr) (sb : SbPtr) : Prop where
  mounted : MountedAt s mnt sb
  covers : Covers mnt path
  longest : ∀ mnt' sb', Registered s mnt' sb' → Covers mnt' path → strlen mnt' ≤ strlen mnt

theorem Covers.isPrefix (h : Covers mnt path) (habs : path.byte 0 = slash) :
    mnt.chars <+: path.chars := by
  rcases h with rfl | ⟨hpre, -⟩
  · exact root_isPrefix habs
  · exact hpre

/-- Prefixes of one path with the same length. -/
theorem eq_of_prefix (h : mnt.chars <+: path.chars) (h' : mnt'.chars <+: path.chars)
    (hlen : strlen mnt = strlen mnt') : mnt = mnt' := by
  have hchars : mnt.chars = mnt'.chars :=
    (List.prefix_of_prefix_length_le h h' (Nat.le_of_eq hlen)).eq_of_length hlen
  obtain ⟨chars, hnz⟩ := mnt
  obtain ⟨chars', hnz'⟩ := mnt'
  obtain rfl : chars = chars' := hchars
  rfl

/-- What `vfs_mount_resolve` returns for a path with a mount. -/
theorem IsMountOf.resolve (h : IsMountOf s path mnt sb) (habs : path.byte 0 = slash)
    (hmnt : ∀ mnt sb, Registered s mnt sb → mnt.byte 0 = slash) :
    (RootReached s path ∧ vfsMountResolve s path = some sb) ∨
      (¬ RootReached s path ∧ vfsMountResolve s path = none) := by
  have hreg := h.mounted.registered
  rcases vfsMountResolve_spec (s := s) habs with
    ⟨heq, hnone⟩ | ⟨mnt', sb', heq, hmounted, hcut, hmax⟩
  · refine .inr ⟨fun hreach => ?_, heq⟩
    have hroot : mnt = rootPath := by
      by_contra hne
      exact hnone mnt sb hreg ((covers_iff hne).mp h.covers)
    rw [hroot] at hreg
    rcases hreach ⟨sb, hreg⟩ with hp | hp | ⟨mnt', sb', hreg', hne', hcov'⟩
    · exact hnone _ sb hreg ((cutsAt_root habs).mpr (.inl hp))
    · exact hnone _ sb hreg ((cutsAt_root habs).mpr (.inr hp))
    · exact hnone mnt' sb' hreg' ((covers_iff hne').mp hcov')
  · refine .inl ⟨rootReached_of_cuts habs hmounted.registered hcut, ?_⟩
    obtain ⟨hpre', hend'⟩ := cutsAt_iff.mp hcut
    have hle : strlen mnt' ≤ strlen mnt := h.longest mnt' sb' hmounted.registered (.inr ⟨hpre', hend'⟩)
    have hge : strlen mnt ≤ strlen mnt' := by
      by_cases hne : mnt = rootPath
      · rw [hne]
        exact strlen_root_le (hmnt mnt' sb' hmounted.registered)
      · exact hmax mnt sb hreg ((covers_iff hne).mp h.covers)
    have hsame : mnt' = mnt :=
      eq_of_prefix hpre' (h.covers.isPrefix habs) (Nat.le_antisymm hle hge)
    rw [hsame] at hmounted
    rw [heq, hmounted.unique h.mounted]

end

/-! ## A table with the root mount -/

/-- Superblock 0 is mounted on `/`. -/
def rootMounts : Mounts :=
  (vfsMountRegister ⟨fun _ => ⟨none, none, none⟩, 0, fun _ => -1⟩ rootPath none 0).2

/-- `"//a"`. -/
def slashSlashA : CStr := ⟨[slash, slash, 97], by decide⟩

theorem registered_rootMounts {mnt : CStr} {sb : SbPtr} (h : Registered rootMounts mnt sb) :
    mnt = rootPath ∧ sb = 0 := by
  obtain ⟨id, hid, hpath, hsb⟩ := registered_lt h
  have hmax : rootMounts.max = 1 := by decide +kernel
  obtain rfl : id = 0 := by omega
  have hpath0 : vfsMountPathGet rootMounts 0 = some rootPath := by decide +kernel
  have hsb0 : vfsMountSbGet rootMounts 0 = some 0 := by decide +kernel
  rw [hpath, Option.some.injEq] at hpath0
  rw [hsb, Option.some.injEq] at hsb0
  exact ⟨hpath0, hsb0⟩

theorem registered_root : Registered rootMounts rootPath 0 :=
  ⟨0, by decide +kernel, by decide +kernel⟩

theorem rootMounts_absolute (mnt : CStr) (sb : SbPtr) (h : Registered rootMounts mnt sb) :
    mnt.byte 0 = slash := by
  rw [(registered_rootMounts h).1]
  rfl

/-- `//a` is on the root mount. -/
theorem vfsMountResolve_right_iff_rootMounts :
    Resolves rootMounts slashSlashA (vfsMountResolve rootMounts slashSlashA) :=
  (vfsMountResolve_right_iff (by decide) rootMounts_absolute).mpr fun _ => .inr (.inl (by decide))

/-- `/a` is on the root mount too, but no superblock is found. -/
theorem vfsMountResolve_misses_root :
    ¬ ∀ (s : Mounts) (path : CStr), path.byte 0 = slash →
      (∀ mnt sb, Registered s mnt sb → mnt.byte 0 = slash) →
      Resolves s path (vfsMountResolve s path) := by
  intro hall
  have hres := hall rootMounts (letterPath 0) (by decide) rootMounts_absolute
  have hnull : vfsMountResolve rootMounts (letterPath 0) = none := by decide +kernel
  rw [hnull] at hres
  exact hres rootPath 0 registered_root (.inl rfl)

end Ko6.Fs
