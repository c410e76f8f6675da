import Ko6.Fs.KfsTree
import Mathlib.Data.Finset.Card

set_option autoImplicit false

/-!
# Fs: full tables of KFS

`kfs_alloc_dentry` and `kfs_alloc_inode` say with 0 that their table is full, and 0 is
the dentry and the inode of `/`.  `kfs_openat` does not test for it.  Without a free
dentry it writes the new entry over that of `/`, whose directory is empty then; without
a free inode the new name is one more name of `/`.
`kfsOpen_clean_iff` says which calls fail cleanly, and `exists_full` that the tables can
be filled.
-/

namespace Ko6.Fs

open Ko6.Lib Ko6.Common

/-! ## Failures -/

/-- What a call that makes dentries returns, and the tables. -/
def kfsReturns (s : Kfs) : KfsRequest → Option (Int × Kfs)
  | .open_ path => (kfsOpen s path).map fun r => (r.1.elim (-1) fun d => (d : Int), r.2)
  | .openat root name => (kfsOpenat s root name).map fun r => ((r.1 : Int), r.2)
  | .unlink _ => none

/-- Every dentry, every inode and all bitmaps are the same. -/
structure SameTables (s s' : Kfs) : Prop where
  dentry : s'.dentry = s.dentry
  inode : s'.inode = s.inode
  dentryMap : s'.dentryMap.bmp = s.dentryMap.bmp
  inodeMap : s'.inodeMap.bmp = s.inodeMap.bmp
  fmapMap : s'.fmapMap.bmp = s.fmapMap.bmp
  pageMap : s'.pageMap.bmp = s.pageMap.bmp

/-- The call returns -1 and changes nothing. -/
def FailsClean (s : Kfs) (c : KfsRequest) : Prop :=
  ∃ s', kfsReturns s c = some (-1, s') ∧ SameTables s s'

/-- No dentry or no inode is free. -/
def Exhausted (s : Kfs) : Prop :=
  (∀ d, d < kfsMaxDentry → s.dentryMap.bmp.isSet d = true) ∨
    ∀ i, i < kfsMaxInode → s.inodeMap.bmp.isSet i = true

/-- The call is for a name that does not exist. -/
def NoSuch (s : Kfs) : KfsRequest → Prop
  | .open_ path => ∀ d, ¬ Names s path d
  | .openat root name => kfsFind s root name = some none
  | .unlink _ => False

/-- The path does not begin with a slash. -/
def Relative : KfsRequest → Prop
  | .open_ path => path.byte 0 ≠ slash
  | .openat _ _ => False
  | .unlink _ => False

section
variable {s s' : Kfs} {root new i : Nat} {name path w : CStr} {c : KfsRequest}

/-- `kfs_open` returns -1 for a path that is not absolute, and else a dentry. -/
theorem kfsOpen_fst {r : Option Nat × Kfs} (h : kfsOpen s path = some r) :
    path.byte 0 ≠ slash ∧ r = (none, s) ∨ ∃ d, r.1 = some d := by
  unfold kfsOpen at h
  by_cases habs : path.byte 0 = slash
  · rw [if_neg (not_not.mpr habs)] at h
    cases hget : kfsGetname path with
    | none =>
      -- an absolute path is not empty
      unfold kfsGetname at hget
      have hne : path.chars ≠ [] := by
        intro hnil
        rw [CStr.byte, hnil] at habs
        exact absurd habs (by decide)
      rw [if_neg hne] at hget
      exact absurd hget (by simp)
    | some p =>
      simp only [hget] at h
      obtain ⟨q, -, hq⟩ := Option.bind_eq_some_iff.mp h
      rw [Option.some.injEq] at hq
      exact .inr ⟨q.1, by rw [← hq]⟩
  · rw [if_pos habs, Option.some.injEq] at h
    exact .inl ⟨habs, h.symm⟩

/-- Of the calls for names that do not exist, only a `kfs_open` of a path that is not
absolute fails cleanly, in full tables as in others. -/
theorem kfsOpen_clean_iff (s : Kfs) (c : KfsRequest) : FailsClean s c ↔ Relative c := by
  unfold FailsClean
  cases c with
  | open_ path =>
    simp only [kfsReturns, Relative]
    constructor
    · rintro ⟨s', hret, -⟩
      obtain ⟨r, hopen, heq⟩ := Option.map_eq_some_iff.mp hret
      rcases kfsOpen_fst hopen with ⟨hrel, -⟩ | ⟨d, hd⟩
      · exact hrel
      · rw [hd, Option.elim_some, Prod.mk.injEq] at heq
        omega
    · intro hrel
      refine ⟨s, ?_, rfl, rfl, rfl, rfl, rfl, rfl⟩
      rw [kfsOpen, if_pos hrel]
      rfl
  | openat root name =>
    simp only [kfsReturns, Relative, iff_false]
    rintro ⟨s', hret, -⟩
    obtain ⟨r, -, heq⟩ := Option.map_eq_some_iff.mp hret
    rw [Prod.mk.injEq] at heq
    omega
  | unlink path =>
    simp only [kfsReturns, Relative, iff_false]
    rintro ⟨s', hret, -⟩
    exact absurd hret (by simp)

/-! ## Without a free dentry -/

theorem kfsAllocBitmap_full {t : KfsBitmap} {max : Nat}
    (h : ∀ i, i < max → t.bmp.isSet i = true) (hcur : t.cur ≤ max) :
    kfsAllocBitmap t max = (0, { t with cur := max }) := by
  have hnone : t.bmp.firstClear (max - t.cur) t.cur = none :=
    Bitmap.firstClear_eq_none.mpr fun i _ hhi => h i (by omega)
  rw [kfsAllocBitmap, hnone]

/-- The new entry is written over the dentry 0. -/
theorem kfsCreate_noDentry (hlow : Low s.dentryMap kfsMaxDentry)
    (hfull : ∀ d, d < kfsMaxDentry → s.dentryMap.bmp.isSet d = true) (root : Nat) (name : CStr) :
    (kfsCreate s root name).1 = 0 ∧ ((kfsCreate s root name).2.dentry 0).leaf = 0 ∧
      (kfsCreate s root name).2.dentryMap = { s.dentryMap with cur := kfsMaxDentry } := by
  have halloc : kfsAllocDentry s name =
      (0, { s with dentryMap := { s.dentryMap with cur := kfsMaxDentry } }) := by
    rw [kfsAllocDentry, kfsAllocBitmap_full hfull hlow.cur_le]
    rfl
  rw [kfsCreate, halloc]
  refine ⟨rfl, ?_⟩
  have hmap := (kfsAllocInode_dentry
    { s with dentryMap := { s.dentryMap with cur := kfsMaxDentry } } .file).1
  simp only
  generalize kfsAllocInode { s with dentryMap := { s.dentryMap with cur := kfsMaxDentry } } .file = r
    at hmap ⊢
  obtain ⟨inode, s₁⟩ := r
  simp only at hmap ⊢
  refine ⟨?_, by rw [Kfs.setDentry_dentryMap, Kfs.setDentry_dentryMap, Kfs.setDentry_dentryMap, hmap]⟩
  by_cases hroot : root = 0
  · rw [hroot, Kfs.setDentry_dentry]
    rfl
  · rw [Kfs.setDentry_dentry_ne (Ne.symm hroot), Kfs.setDentry_dentry, Kfs.setDentry_dentry]

/-- A tree of more than its root has leaves in `/`. -/
theorem IsTree.leaf_top (h : IsTree s) {d : Nat} (hd : Allocated s d) (hd0 : d ≠ 0) :
    (s.dentry 0).leaf ≠ 0 := by
  obtain ⟨l, hl⟩ := h.leaves 0 h.top
  obtain ⟨n, hn⟩ := h.reaches d hd
  have hex : ∃ x, Allocated s x ∧ x ≠ 0 ∧ (s.dentry x).root = 0 := by
    induction hn with
    | root => exact absurd rfl hd0
    | @inDir d n _ _ ih =>
      by_cases htop : (s.dentry d).root = 0
      · exact ⟨d, hd, hd0, htop⟩
      · exact ih (h.above d hd hd0) htop
  obtain ⟨x, hx⟩ := hex
  have hmem := (hl.mem_iff x).mpr hx
  intro hempty
  have hchain := hl.chain
  rw [hempty] at hchain
  rw [hchain.unique (show Chain 0 (nextOf s) 0 [] from rfl)] at hmem
  exact absurd hmem List.not_mem_nil

/-- `kfs_openat` of a new name without a free dentry returns the dentry of `/`, and all
the names of `/` are lost. -/
theorem KfsInv.openat_noDentry (hinv : KfsInv s)
    (hfull : ∀ d, d < kfsMaxDentry → s.dentryMap.bmp.isSet d = true)
    (hmiss : kfsFind s root name = some none) :
    ∃ s', kfsOpenat s root name = some (0, s') ∧ (s.dentry 0).leaf ≠ 0 ∧ (s'.dentry 0).leaf = 0 := by
  obtain ⟨h0, hleaf, -⟩ := kfsCreate_noDentry (s := setDir s root) hinv.lowDentry hfull root name
  refine ⟨(kfsCreate (setDir s root) root name).2, ?_, ?_, hleaf⟩
  · rw [kfsOpenat, hmiss, ← h0]
    rfl
  · exact hinv.leaf_top (d := 1) ⟨by decide, hfull 1 (by decide)⟩ (by decide)

/-! ## Full tables -/

/-- The bits that are set. -/
def bitsSet (b : Bitmap) (n : Nat) : Finset Nat := (Finset.range n).filter fun k => b.isSet k = true

theorem card_bitsSet_set {b b' : Bitmap} {n k : Nat} (hk : k < n) (hfree : b.isSet k = false)
    (h : ∀ j, b'.isSet j = (decide (j = k) || b.isSet j)) :
    (bitsSet b' n).card = (bitsSet b n).card + 1 := by
  have hins : bitsSet b' n = insert k (bitsSet b n) := by
    ext j
    unfold bitsSet
    rw [Finset.mem_insert, Finset.mem_filter, Finset.mem_filter, h, Finset.mem_range,
      Bool.or_eq_true, decide_eq_true_eq]
    constructor
    · rintro ⟨hj, rfl | hset⟩
      · exact .inl rfl
      · exact .inr ⟨hj, hset⟩
    · rintro (rfl | ⟨hj, hset⟩)
      · exact ⟨hk, .inl rfl⟩
      · exact ⟨hj, .inr hset⟩
  have hnot : k ∉ bitsSet b n := by
    unfold bitsSet
    rw [Finset.mem_filter, hfree]
    simp
  rw [hins, Finset.card_insert_of_notMem hnot]

theorem exists_clear {b : Bitmap} {n : Nat} (h : (bitsSet b n).card < n) :
    ∃ k, k < n ∧ b.isSet k = false := by
  by_contra hno
  have hall : bitsSet b n = Finset.range n := by
    refine Finset.filter_true_of_mem fun k hk => ?_
    by_contra hclear
    exact hno ⟨k, Finset.mem_range.mp hk, Bool.eq_false_of_not_eq_true hclear⟩
  rw [hall, Finset.card_range] at h
  omega

theorem all_set {b : Bitmap} {n : Nat} (h : (bitsSet b n).card = n) :
    ∀ k, k < n → b.isSet k = true := by
  have hall : bitsSet b n = Finset.range n :=
    Finset.eq_of_subset_of_card_le (Finset.filter_subset _ _) (by rw [h, Finset.card_range])
  intro k hk
  have hmem : k ∈ bitsSet b n := by
    rw [hall]
    exact Finset.mem_range.mpr hk
  exact (Finset.mem_filter.mp hmem).2

/-- Names of two letters, one for each dentry. -/
def twoLetters (n : Fin 256) : CStr :=
  ⟨[BitVec.ofNat 8 (65 + n / 16), BitVec.ofNat 8 (65 + n % 16)], by
    intro c hc h
    rcases List.mem_pair.mp hc with rfl | rfl
    all_goals
      have hnat := congrArg BitVec.toNat h
      simp only [BitVec.toNat_ofNat, BitVec.ofNat_eq_ofNat, Nat.zero_mod] at hnat
      omega⟩

theorem twoLetters_injective {m n : Fin 256} (h : twoLetters m = twoLetters n) : m = n := by
  have hvalue : ∀ n : Fin 256, (((twoLetters n).byte 0).toNat - 65) * 16 +
      (((twoLetters n).byte 1).toNat - 65) = n := by
    decide +kernel
  apply Fin.ext
  rw [← hvalue m, ← hvalue n, h]

/-- A run after `n` names in `/`. -/
structure FilledTo (n : Nat) (s : Kfs) : Prop where
  run : KfsRun s
  names : ∀ x, IsLeaf s 0 x → ∃ m : Fin 256, (m : Nat) < n ∧ HasName s x (twoLetters m)
  dentries : (bitsSet s.dentryMap.bmp kfsMaxDentry).card = n + 1
  inodes : (bitsSet s.inodeMap.bmp kfsMaxInode).card = n + 1

theorem filledTo_start : FilledTo 0 kfsStart where
  run := .start
  names := by
    rintro x ⟨⟨-, hset⟩, hx0, -⟩
    rw [kfsStart, Bitmap.isSet_set, Bitmap.isSet] at hset
    simp at hset
    exact absurd hset hx0
  dentries := by decide +kernel
  inodes := by decide +kernel

theorem length_twoLetters (n : Fin 256) : strlen (twoLetters n) = 2 := rfl

/-- While a dentry is free, one more name can be made. -/
theorem FilledTo.next {n : Nat} (h : FilledTo n s) (hn : n < 255) : ∃ s', FilledTo (n + 1) s' := by
  have hmaxD : kfsMaxDentry = 256 := rfl
  have hmaxI : kfsMaxInode = 256 := rfl
  have hinv := h.run.inv
  have hroom : Room s :=
    ⟨exists_clear (by rw [h.dentries]; omega), exists_clear (by rw [h.inodes]; omega)⟩
  let name := twoLetters ⟨n, by omega⟩
  have hname : strlen name < kfsMaxName := by
    rw [length_twoLetters]
    decide
  have hnone : kfsFind s 0 name = some none := by
    rcases kfsFind_spec hinv.toIsTree hinv.top name with ⟨x, -, hleaf, hx⟩ | ⟨hfind, -⟩
    · obtain ⟨m, hm, hxm⟩ := h.names x hleaf
      have heq := twoLetters_injective (hxm.unique hx)
      rw [heq] at hm
      exact absurd hm (Nat.lt_irrefl n)
    · exact hfind
  have hinv' := hinv.ofSetDir 0
  obtain ⟨new, i, s', hcreate, hcreated⟩ := kfsCreate_spec (s := setDir s 0) hinv'.lowDentry
    hinv'.lowInode hinv'.top.2 hinv'.inodeTop hroom hinv.top hname
  have hdo : kfsDo s (.openat 0 name) = some s' := by
    rw [kfsDo, kfsOpenat, hnone]
    exact congrArg (fun r => some (Prod.snd r)) hcreate
  have hpermitted : Permitted s (.openat 0 name) := ⟨hinv.top, hname, fun _ => hroom⟩
  refine ⟨s', h.run.call hpermitted hdo, fun x hx => ?_, ?_, ?_⟩
  · obtain ⟨hall, hx0, hroot⟩ := hx
    rcases hcreated.hung.allocated_iff.mp hall with rfl | hold
    · exact ⟨⟨n, by omega⟩, Nat.lt_succ_self n, hcreated.hung.hasName_new hname⟩
    · rw [(hcreated.hung.dentry_old (hcreated.hung.ne_new hold)).1] at hroot
      obtain ⟨m, hm, hxm⟩ := h.names x ⟨hold, hx0, hroot⟩
      exact ⟨m, by omega, (hcreated.hung.hasName_old hinv'.toIsTree hold hx0).mpr hxm⟩
  · rw [card_bitsSet_set hcreated.new_lt hcreated.new_free hcreated.dentrySet]
    exact congrArg (· + 1) h.dentries
  · rw [card_bitsSet_set hcreated.i_lt hcreated.i_free hcreated.inodeSet]
    exact congrArg (· + 1) h.inodes

theorem exists_filledTo : ∀ n, n ≤ 255 → ∃ s, FilledTo n s := by
  intro n
  induction n with
  | zero => exact fun _ => ⟨kfsStart, filledTo_start⟩
  | succ n ih =>
    intro hn
    obtain ⟨s, hs⟩ := ih (by omega)
    exact hs.next (by omega)

end

/-! ## One name too many -/

/-- After 255 names all dentries are in use. -/
theorem exists_full : ∃ s, KfsRun s ∧ (∀ d, d < kfsMaxDentry → s.dentryMap.bmp.isSet d = true) ∧
    kfsFind s 0 nameF = some none := by
  obtain ⟨s, hs⟩ := exists_filledTo 255 (Nat.le_refl _)
  refine ⟨s, hs.run, all_set hs.dentries, ?_⟩
  rcases kfsFind_spec hs.run.inv.toIsTree hs.run.inv.top nameF with ⟨x, -, hleaf, hx⟩ | ⟨hfind, -⟩
  · obtain ⟨m, -, hxm⟩ := hs.names x hleaf
    have hlen := congrArg strlen (hxm.unique hx)
    exact absurd hlen (by rw [length_twoLetters]; decide)
  · exact hfind

/-- The name `f` behind them: `kfs_openat` returns the dentry of `/`, which has lost its
255 names. -/
theorem kfsOpenat_full_damages : ∃ s, KfsRun s ∧ Exhausted s ∧ NoSuch s (.openat 0 nameF) ∧
    ¬ FailsClean s (.openat 0 nameF) ∧
    ∃ s', kfsReturns s (.openat 0 nameF) = some (0, s') ∧ (s.dentry 0).leaf ≠ 0 ∧
      (s'.dentry 0).leaf = 0 := by
  obtain ⟨s, hrun, hfull, hmiss⟩ := exists_full
  obtain ⟨s', hopen, hbefore, hafter⟩ := hrun.inv.openat_noDentry hfull hmiss
  have hret : kfsReturns s (.openat 0 nameF) = some (0, s') := by
    rw [kfsReturns, hopen]
    rfl
  refine ⟨s, hrun, .inl hfull, hmiss, ?_, s', hret, hbefore, hafter⟩
  rintro ⟨s₁, hclean, -⟩
  rw [hret, Option.some.injEq, Prod.mk.injEq] at hclean
  omega

end Ko6.Fs
