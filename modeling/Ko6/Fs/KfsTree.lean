import Ko6.Fs.Kfs
import Ko6.Lib.Chain

set_option autoImplicit false

/-!
# Fs: the tree of KFS

The dentries of a directory are chained by `next` from its `leaf` on, and each names the
directory in `root`; 0 is both the root directory and the end of a chain.  `KfsInv` is
kept by opens that find room and by the removal of names without leaves, and makes the
allocated dentries a tree, which `kfs_tree_cb` walks once.
-/

namespace Ko6.Fs

open Ko6.Lib Ko6.Common

/-! ## The tree -/

/-- The dentry is in use. -/
def Allocated (s : Kfs) (d : Nat) : Prop := d < kfsMaxDentry ∧ s.dentryMap.bmp.isSet d = true

/-- The name of the dentry. -/
def HasName (s : Kfs) (d : Nat) (w : CStr) : Prop := ∀ i, i ≤ strlen w → kfsName s d i = w.byte i

/-- The number of directories above the dentry. -/
inductive DepthOf (s : Kfs) : Nat → Nat → Prop where
  | root : DepthOf s 0 0
  | inDir {d n : Nat} : d ≠ 0 → DepthOf s (s.dentry d).root n → DepthOf s d (n + 1)

/-- The links of the leaves. -/
def nextOf (s : Kfs) (d : Nat) : Nat := (s.dentry d).next

/-- `l` is the list of the directory `d`: its leaves, each once. -/
structure LeavesOf (s : Kfs) (d : Nat) (l : List Nat) : Prop where
  chain : Chain 0 (nextOf s) (s.dentry d).leaf l
  nodup : l.Nodup
  mem_iff : ∀ x, x ∈ l ↔ Allocated s x ∧ x ≠ 0 ∧ (s.dentry x).root = d

/-- The allocated dentries are a tree with root 0. -/
structure IsTree (s : Kfs) : Prop where
  top : Allocated s 0
  leaves : ∀ d, Allocated s d → ∃ l, LeavesOf s d l
  above : ∀ d, Allocated s d → d ≠ 0 → Allocated s (s.dentry d).root
  named : ∀ d, Allocated s d → d ≠ 0 → ∃ w, strlen w < kfsMaxName ∧ HasName s d w
  distinct : ∀ x y w, Allocated s x → Allocated s y → x ≠ 0 → y ≠ 0 →
    (s.dentry x).root = (s.dentry y).root → HasName s x w → HasName s y w → x = y
  reaches : ∀ d, Allocated s d → ∃ n, DepthOf s d n

/-- The search of a bitmap begins before its first clear bit. -/
structure Low (t : KfsBitmap) (max : Nat) : Prop where
  cur_le : t.cur ≤ max
  below : ∀ i, i < t.cur → t.bmp.isSet i = true

/-- What the calls keep. -/
structure KfsInv (s : Kfs) : Prop extends IsTree s where
  dirs : ∀ d, Allocated s d → d ≠ 0 → kfsIsdir s (s.dentry d).root = true
  inodeUsed : ∀ d, Allocated s d →
    (s.dentry d).inode < kfsMaxInode ∧ s.inodeMap.bmp.isSet (s.dentry d).inode = true
  inodeOnce : ∀ x y, Allocated s x → Allocated s y → (s.dentry x).inode = (s.dentry y).inode → x = y
  oneName : ∀ d, Allocated s d → d ≠ 0 → (s.inode (s.dentry d).inode).count = 1
  lowDentry : Low s.dentryMap kfsMaxDentry
  lowInode : Low s.inodeMap kfsMaxInode
  inodeTop : s.inodeMap.bmp.isSet 0 = true

/-! ## Runs -/

/-- A dentry and an inode are free. -/
def Room (s : Kfs) : Prop :=
  (∃ d, d < kfsMaxDentry ∧ s.dentryMap.bmp.isSet d = false) ∧
    ∃ i, i < kfsMaxInode ∧ s.inodeMap.bmp.isSet i = false

/-- The names of the rest of a path are short, and there is room when one is new. -/
def OpenOk : Nat → CStr → Nat → Kfs → Prop
  | 0, _, _, _ => True
  | fuel + 1, next, dentry, s =>
    match kfsGetname next with
    | none => True
    | some (name, next) =>
      strlen name < kfsMaxName ∧ (kfsFind s dentry name = some none → Room s) ∧
        ∀ r, kfsOpenat s dentry name = some r → OpenOk fuel next r.1 r.2

/-- The dentry that the rest of a path names. -/
def kfsLookupLoop (s : Kfs) : Nat → CStr → Nat → Option Nat
  | 0, _, dentry => some dentry
  | fuel + 1, next, dentry =>
    match kfsGetname next with
    | none => some dentry
    | some (name, next) => do
      let found ← kfsFind s dentry name
      let leaf ← found
      kfsLookupLoop s fuel next leaf

/-- The path names the dentry. -/
def Names (s : Kfs) (path : CStr) (d : Nat) : Prop :=
  path.byte 0 = slash ∧ ∃ name next, kfsGetname path = some (name, next) ∧
    OpenOk (strlen next) next 0 s ∧ kfsLookupLoop s (strlen next) next 0 = some d

/-- The calls that change the tree. -/
inductive KfsRequest where
  | open_ (path : CStr)
  | openat (root : Nat) (name : CStr)
  | unlink (path : CStr)

/-- The tables after a call; `none` when it does not return. -/
def kfsDo (s : Kfs) : KfsRequest → Option Kfs
  | .open_ path => (kfsOpen s path).map Prod.snd
  | .openat root name => (kfsOpenat s root name).map Prod.snd
  | .unlink path => kfsUnlink s path

/-- What a caller keeps to: short names, room for the new ones, a directory that is in
use, and only names other than `/` without leaves are removed. -/
def Permitted (s : Kfs) : KfsRequest → Prop
  | .open_ path =>
    ∀ name next, kfsGetname path = some (name, next) → OpenOk (strlen next) next 0 s
  | .openat root name =>
    Allocated s root ∧ strlen name < kfsMaxName ∧ (kfsFind s root name = some none → Room s)
  | .unlink path =>
    ∃ d, Names s path d ∧ d ≠ 0 ∧ ∀ x, Allocated s x → x ≠ 0 → (s.dentry x).root ≠ d

/-- Calls from the start on. -/
inductive KfsRun : Kfs → Prop where
  | start : KfsRun kfsStart
  | call {s s' : Kfs} {c : KfsRequest} : KfsRun s → Permitted s c → kfsDo s c = some s' → KfsRun s'

/-! ## Bitmaps -/

section
variable {t : KfsBitmap} {max : Nat}

theorem Low.alloc (h : Low t max) (hfree : ∃ i, i < max ∧ t.bmp.isSet i = false) :
    ∃ r, r < max ∧ t.bmp.isSet r = false ∧ kfsAllocBitmap t max = (r, ⟨t.bmp.set r, r⟩) ∧
      Low ⟨t.bmp.set r, r⟩ max := by
  obtain ⟨i, hi, hclear⟩ := hfree
  have hle := h.cur_le
  have hcur : t.cur ≤ i := by
    by_contra hlt
    rw [h.below i (by omega)] at hclear
    exact absurd hclear (by decide)
  unfold kfsAllocBitmap
  cases hfirst : t.bmp.firstClear (max - t.cur) t.cur with
  | none =>
    rw [Bitmap.firstClear_eq_none.mp hfirst i hcur (by omega)] at hclear
    exact absurd hclear (by decide)
  | some r =>
    obtain ⟨hlo, hhi, hr, hbefore⟩ := Bitmap.firstClear_eq_some hfirst
    refine ⟨r, by omega, hr, rfl, by simp only; omega, fun k hk => ?_⟩
    rw [Bitmap.isSet_set]
    by_cases hold : k < t.cur
    · rw [h.below k hold, Bool.or_true]
    · rw [hbefore k (by omega) hk, Bool.or_true]

theorem Low.free (h : Low t max) (bit : Nat) : Low (kfsFreeBitmap t bit) max := by
  have hle := h.cur_le
  unfold kfsFreeBitmap
  refine ⟨?_, fun i hi => ?_⟩
  · simp only
    split <;> omega
  · simp only at hi ⊢
    have hlt : i < t.cur ∧ i ≠ bit := by
      split at hi <;> omega
    rw [Bitmap.isSet_clear, h.below i hlt.1, decide_eq_false hlt.2]
    rfl

end

/-! ## Names -/

section
variable {s s' : Kfs} {d root : Nat} {w name : CStr}

/-- The bytes of a name stay in its field. -/
theorem kfsName_eq {i : Nat} (hi : i < kfsMaxName) : kfsName s d i = (s.dentry d).name i := by
  have hmax : kfsMaxName = 28 := rfl
  rw [kfsName, show (i + 4) / 32 = 0 by omega, show (i + 4) % 32 = i + 4 by omega, Nat.add_zero]
  rfl

theorem HasName.congr (h : HasName s d w) (hw : strlen w < kfsMaxName)
    (heq : (s'.dentry d).name = (s.dentry d).name) : HasName s' d w := by
  intro i hi
  rw [kfsName_eq (Nat.lt_of_le_of_lt hi hw), heq, ← kfsName_eq (s := s) (Nat.lt_of_le_of_lt hi hw)]
  exact h i hi

theorem HasName.unique (h : HasName s d w) (h' : HasName s d name) : w = name :=
  CStr.eq_of_byte fun i hi hi' => (h i hi).symm.trans (h' i hi')

/-- `kfs_strcmp` tells whether the bytes begin with the string and its NUL. -/
theorem kfsStrcmp_eq_zero_iff {s1 : Nat → BitVec 8} {l : List (BitVec 8)} {i : Nat}
    (hl : ∀ c ∈ l, c ≠ 0) :
    kfsStrcmp s1 l i = 0 ↔ ∀ k, k ≤ l.length → s1 (i + k) = l.getD k 0 := by
  induction l generalizing i with
  | nil =>
    rw [kfsStrcmp]
    constructor
    · intro h k hk
      obtain rfl : k = 0 := by simpa using hk
      exact BitVec.eq_of_toNat_eq (by simpa using h)
    · intro h
      have hzero := h 0 (Nat.le_refl 0)
      rw [Nat.add_zero] at hzero
      rw [hzero]
      rfl
  | cons c l ih =>
    rw [kfsStrcmp]
    have hc := hl c List.mem_cons_self
    by_cases hsame : s1 i ≠ 0 ∧ s1 i = c
    · rw [if_pos hsame, ih fun c hc => hl c (List.mem_cons_of_mem _ hc)]
      constructor
      · intro h k hk
        cases k with
        | zero => exact hsame.2
        | succ k =>
          have hk' := h k (by simpa using hk)
          rwa [show i + (k + 1) = i + 1 + k by omega, List.getD_cons_succ]
      · intro h k hk
        have hk' := h (k + 1) (by simpa using hk)
        rwa [show i + (k + 1) = i + 1 + k by omega, List.getD_cons_succ] at hk'
    · rw [if_neg hsame]
      constructor
      · intro h
        have heq : s1 i = c := BitVec.eq_of_toNat_eq (by omega)
        exact absurd ⟨heq ▸ hc, heq⟩ hsame
      · intro h
        have heq : s1 i = c := h 0 (Nat.zero_le _)
        exact absurd ⟨heq ▸ hc, heq⟩ hsame

theorem kfsStrcmp_hasName : kfsStrcmp (kfsName s d) name.chars 0 = 0 ↔ HasName s d name := by
  rw [kfsStrcmp_eq_zero_iff name.nonzero]
  unfold HasName strlen CStr.byte
  simp only [Nat.zero_add]

/-! ## The search in a directory -/

theorem kfsFindLoop_spec (name : CStr) {l : List Nat} {leaf : Nat}
    (h : Chain 0 (nextOf s) leaf l) (hne : l ≠ []) {fuel : Nat} (hfuel : l.length ≤ fuel) :
    (∃ x ∈ l, kfsFindLoop s name fuel leaf = some (some x) ∧ HasName s x name) ∨
      (kfsFindLoop s name fuel leaf = some none ∧ ∀ x ∈ l, ¬ HasName s x name) := by
  induction l generalizing leaf fuel with
  | nil => exact absurd rfl hne
  | cons x l ih =>
    cases fuel with
    | zero => exact absurd hfuel (by simp)
    | succ fuel =>
      obtain ⟨rfl, -, hl⟩ := h
      rw [kfsFindLoop]
      by_cases hname : HasName s leaf name
      · rw [if_pos (kfsStrcmp_hasName.mpr hname)]
        exact .inl ⟨leaf, List.mem_cons_self, rfl, hname⟩
      · rw [if_neg (mt kfsStrcmp_hasName.mp hname)]
        cases l with
        | nil =>
          have hend : (s.dentry leaf).next = 0 := hl
          rw [if_neg (not_not.mpr hend)]
          refine .inr ⟨rfl, fun x hx => ?_⟩
          rw [List.mem_singleton] at hx
          rwa [hx]
        | cons y l =>
          have hnext : (s.dentry leaf).next ≠ 0 := fun he => hl.2.1 (hl.1.symm.trans he)
          rw [if_pos hnext]
          rcases ih hl (List.cons_ne_nil y l) (by simpa using hfuel) with
            ⟨x, hx, heq, hw⟩ | ⟨heq, hnone⟩
          · exact .inl ⟨x, List.mem_cons_of_mem _ hx, heq, hw⟩
          · refine .inr ⟨heq, fun x hx => ?_⟩
            rcases List.mem_cons.mp hx with rfl | hx
            · exact hname
            · exact hnone x hx

/-- A leaf of the directory. -/
def IsLeaf (s : Kfs) (root x : Nat) : Prop := Allocated s x ∧ x ≠ 0 ∧ (s.dentry x).root = root

/-- `l` is the list of `d`, of some of its leaves, each once. -/
structure ListOf (s : Kfs) (d : Nat) (l : List Nat) : Prop where
  chain : Chain 0 (nextOf s) (s.dentry d).leaf l
  nodup : l.Nodup
  leaf : ∀ x ∈ l, IsLeaf s d x

theorem LeavesOf.listOf {l : List Nat} (h : LeavesOf s d l) : ListOf s d l :=
  ⟨h.chain, h.nodup, fun x hx => (h.mem_iff x).mp hx⟩

/-- A list of leaves is not longer than the table. -/
theorem ListOf.length_le {l : List Nat} (h : ListOf s d l) : l.length ≤ kfsMaxDentry := by
  have hsub : l ⊆ List.range kfsMaxDentry := fun x hx => List.mem_range.mpr (h.leaf x hx).1.1
  have hlen := (h.nodup.subperm hsub).length_le
  rwa [List.length_range] at hlen

theorem ListOf.find {l : List Nat} (h : ListOf s root l) (name : CStr) :
    (∃ x ∈ l, kfsFind s root name = some (some x) ∧ HasName s x name) ∨
      (kfsFind s root name = some none ∧ ∀ x ∈ l, ¬ HasName s x name) := by
  unfold kfsFind
  cases l with
  | nil =>
    have hempty : (s.dentry root).leaf = 0 := h.chain
    rw [if_neg (not_not.mpr hempty)]
    exact .inr ⟨rfl, fun x hx => absurd hx List.not_mem_nil⟩
  | cons y l =>
    have hleaf : (s.dentry root).leaf ≠ 0 := fun he => h.chain.2.1 (h.chain.1.symm.trans he)
    rw [if_pos hleaf]
    exact kfsFindLoop_spec name h.chain (List.cons_ne_nil y l) h.length_le

theorem kfsFind_spec (h : IsTree s) (hroot : Allocated s root) (name : CStr) :
    (∃ x, kfsFind s root name = some (some x) ∧ IsLeaf s root x ∧ HasName s x name) ∨
      (kfsFind s root name = some none ∧ ∀ x, IsLeaf s root x → ¬ HasName s x name) := by
  obtain ⟨l, hl⟩ := h.leaves root hroot
  rcases hl.listOf.find name with ⟨x, hx, heq, hw⟩ | ⟨heq, hnone⟩
  · exact .inl ⟨x, heq, (hl.mem_iff x).mp hx, hw⟩
  · exact .inr ⟨heq, fun x hx => hnone x ((hl.mem_iff x).mpr hx)⟩

end

/-! ## A new leaf -/

/-- The dentries with a new leaf `new` of `root`. -/
structure Hung (s : Kfs) (root : Nat) (name : CStr) (new : Nat) (s' : Kfs) : Prop where
  new_lt : new < kfsMaxDentry
  new_free : s.dentryMap.bmp.isSet new = false
  lowDentry : Low s'.dentryMap kfsMaxDentry
  dentrySet : ∀ k, s'.dentryMap.bmp.isSet k = (decide (k = new) || s.dentryMap.bmp.isSet k)
  atNew : ∃ (i : Nat) (named : Nat → BitVec 8),
    s'.dentry new = ⟨root, (s.dentry root).leaf, 0, i, named⟩ ∧
    ∀ k, k ≤ strlen name → named k = name.byte k
  atRoot : s'.dentry root = { s.dentry root with leaf := new }
  other : ∀ x, x ≠ new → x ≠ root → s'.dentry x = s.dentry x

/-- The tables with a new leaf `new` of `root`, whose inode is `i`. -/
structure Created (s : Kfs) (root : Nat) (name : CStr) (new i : Nat) (s' : Kfs) : Prop where
  new_lt : new < kfsMaxDentry
  new_free : s.dentryMap.bmp.isSet new = false
  i_lt : i < kfsMaxInode
  i_free : s.inodeMap.bmp.isSet i = false
  lowDentry : Low s'.dentryMap kfsMaxDentry
  lowInode : Low s'.inodeMap kfsMaxInode
  dentrySet : ∀ k, s'.dentryMap.bmp.isSet k = (decide (k = new) || s.dentryMap.bmp.isSet k)
  inodeSet : ∀ k, s'.inodeMap.bmp.isSet k = (decide (k = i) || s.inodeMap.bmp.isSet k)
  atNew : ∃ named : Nat → BitVec 8, s'.dentry new = ⟨root, (s.dentry root).leaf, 0, i, named⟩ ∧
    ∀ k, k ≤ strlen name → named k = name.byte k
  atRoot : s'.dentry root = { s.dentry root with leaf := new }
  other : ∀ x, x ≠ new → x ≠ root → s'.dentry x = s.dentry x
  inodeNew : (s'.inode i).count = 1
  inodeOther : ∀ j, j ≠ i → s'.inode j = s.inode j

section
variable {s s' : Kfs} {d root new i x n : Nat} {w name : CStr}

theorem kfsAllocDentry_spec (hlow : Low s.dentryMap kfsMaxDentry)
    (h0 : s.dentryMap.bmp.isSet 0 = true)
    (hroom : ∃ d, d < kfsMaxDentry ∧ s.dentryMap.bmp.isSet d = false)
    (hname : strlen name < kfsMaxName) :
    ∃ new s', kfsAllocDentry s name = (new, s') ∧ new < kfsMaxDentry ∧
      s.dentryMap.bmp.isSet new = false ∧ Low s'.dentryMap kfsMaxDentry ∧
      (∀ k, s'.dentryMap.bmp.isSet k = (decide (k = new) || s.dentryMap.bmp.isSet k)) ∧
      (∀ k, k ≤ strlen name → (s'.dentry new).name k = name.byte k) ∧
      (∀ x, x ≠ new → s'.dentry x = s.dentry x) ∧ s'.inodeMap = s.inodeMap ∧
      s'.inode = s.inode := by
  obtain ⟨new, hnew, hfree, halloc, hlow'⟩ := hlow.alloc hroom
  have hne : new ≠ 0 := by
    rintro rfl
    rw [h0] at hfree
    exact absurd hfree (by decide)
  let s₁ : Kfs := { s with dentryMap := ⟨s.dentryMap.bmp.set new, new⟩ }
  refine ⟨new, s₁.setDentry new fun e => { e with name := nameField name e.name }, ?_, hnew, hfree,
    hlow', fun k => Bitmap.isSet_set .., fun k hk => ?_, fun x hx => Kfs.setDentry_dentry_ne hx,
    rfl, rfl⟩
  · rw [kfsAllocDentry, halloc]
    simp only [if_neg hne, kfsStrcpyName, if_pos hname]
    rfl
  · rw [Kfs.setDentry_dentry]
    simp only [nameField]
    by_cases hlt : k < strlen name
    · rw [if_pos hlt]
    · have hend : k = strlen name := by omega
      rw [if_neg hlt, if_pos hend, eq_comm, name.byte_eq_zero_iff]
      unfold strlen at hend
      omega

theorem kfsAllocInode_spec (hlow : Low s.inodeMap kfsMaxInode)
    (h0 : s.inodeMap.bmp.isSet 0 = true)
    (hroom : ∃ i, i < kfsMaxInode ∧ s.inodeMap.bmp.isSet i = false) (type : KfsType) :
    ∃ i s', kfsAllocInode s type = (i, s') ∧ i < kfsMaxInode ∧
      s.inodeMap.bmp.isSet i = false ∧ Low s'.inodeMap kfsMaxInode ∧
      (∀ k, s'.inodeMap.bmp.isSet k = (decide (k = i) || s.inodeMap.bmp.isSet k)) ∧
      (s'.inode i).count = 1 ∧ (∀ j, j ≠ i → s'.inode j = s.inode j) ∧
      s'.dentryMap = s.dentryMap ∧ s'.dentry = s.dentry := by
  obtain ⟨i, hi, hfree, halloc, hlow'⟩ := hlow.alloc hroom
  have hne : i ≠ 0 := by
    rintro rfl
    rw [h0] at hfree
    exact absurd hfree (by decide)
  let s₁ : Kfs := { s with inodeMap := ⟨s.inodeMap.bmp.set i, i⟩ }
  refine ⟨i, s₁.setInode i fun e => { e with type := type, mode := 0o77, count := 1 }, ?_, hi,
    hfree, hlow', fun k => Bitmap.isSet_set .., ?_, fun j hj => Kfs.setInode_inode_ne hj, rfl, rfl⟩
  · rw [kfsAllocInode, halloc]
    simp only [if_neg hne]
    rfl
  · rw [Kfs.setInode_inode]

theorem kfsAllocInode_dentry (s : Kfs) (type : KfsType) :
    (kfsAllocInode s type).2.dentryMap = s.dentryMap ∧
      (kfsAllocInode s type).2.dentry = s.dentry := by
  unfold kfsAllocInode
  split
  split <;> exact ⟨rfl, rfl⟩

/-- `kfs_openat` of a new name, when a dentry is free; the inode is the one that
`kfs_alloc_inode` returns. -/
theorem kfsCreate_hung (hd : Low s.dentryMap kfsMaxDentry) (hd0 : s.dentryMap.bmp.isSet 0 = true)
    (hroom : ∃ d, d < kfsMaxDentry ∧ s.dentryMap.bmp.isSet d = false) (hroot : Allocated s root)
    (hname : strlen name < kfsMaxName) :
    ∃ new s₁ s', kfsCreate s root name = (new, s') ∧ Hung s root name new s' ∧
      s₁.inodeMap = s.inodeMap ∧ s₁.inode = s.inode ∧
      (s'.dentry new).inode = u8 (kfsAllocInode s₁ .file).1 ∧
      s'.inodeMap = (kfsAllocInode s₁ .file).2.inodeMap ∧
      s'.inode = (kfsAllocInode s₁ .file).2.inode := by
  obtain ⟨new, s₁, halloc₁, hnew, hnewFree, hlowD, hsetD, hnamed, hother, hmap₁, hino₁⟩ :=
    kfsAllocDentry_spec hd hd0 hroom hname
  obtain ⟨hmap₂, hden₂⟩ := kfsAllocInode_dentry s₁ .file
  generalize halloc₂ : kfsAllocInode s₁ .file = r at hmap₂ hden₂
  obtain ⟨i, s₂⟩ := r
  simp only at hmap₂ hden₂
  have hne : root ≠ new := by
    rintro rfl
    rw [hroot.2] at hnewFree
    exact absurd hnewFree (by decide)
  have hmaxD : kfsMaxDentry = 256 := rfl
  have hu8r : u8 root = root := Nat.mod_eq_of_lt (by have := hroot.1; omega)
  have hu8n : u8 new = new := Nat.mod_eq_of_lt (by omega)
  have hroot₂ : s₂.dentry root = s.dentry root := by rw [hden₂, hother root hne]
  have heq : kfsCreate s root name = (new, (kfsCreate s root name).2) := by
    rw [kfsCreate, halloc₁]
  refine ⟨new, s₁, _, heq, ?_⟩
  rw [halloc₂, kfsCreate, halloc₁]
  simp only [halloc₂]
  have hat : ((((s₂.setDentry new fun e => { e with inode := u8 i, leaf := 0, root := u8 root
      }).setDentry new fun e => { e with next := (s₂.dentry root).leaf }).setDentry root fun e =>
      { e with leaf := u8 new }).dentry new)
      = ⟨root, (s.dentry root).leaf, 0, u8 i, (s₁.dentry new).name⟩ := by
    rw [Kfs.setDentry_dentry_ne hne.symm, Kfs.setDentry_dentry, Kfs.setDentry_dentry, hroot₂, hu8r,
      hden₂]
  have hleaf : ((s₂.setDentry new fun e => { e with inode := u8 i, leaf := 0, root := u8 root
      }).dentry root).leaf = (s₂.dentry root).leaf := by
    rw [Kfs.setDentry_dentry_ne hne]
  rw [hleaf]
  refine ⟨?_, hmap₁, hino₁, by rw [hat], rfl, rfl⟩
  exact
    { new_lt := hnew
      new_free := hnewFree
      lowDentry := by simpa [hmap₂] using hlowD
      dentrySet := by simpa [hmap₂] using hsetD
      atNew := ⟨u8 i, (s₁.dentry new).name, hat, hnamed⟩
      atRoot := by
        rw [Kfs.setDentry_dentry, Kfs.setDentry_dentry_ne hne, Kfs.setDentry_dentry_ne hne, hroot₂,
          hu8n]
      other := fun x hx hxr => by
        rw [Kfs.setDentry_dentry_ne hxr, Kfs.setDentry_dentry_ne hx, Kfs.setDentry_dentry_ne hx,
          hden₂, hother x hx] }

/-- `kfs_openat` of a new name, when there is room. -/
theorem kfsCreate_spec (hd : Low s.dentryMap kfsMaxDentry) (hi : Low s.inodeMap kfsMaxInode)
    (hd0 : s.dentryMap.bmp.isSet 0 = true) (hi0 : s.inodeMap.bmp.isSet 0 = true) (hroom : Room s)
    (hroot : Allocated s root) (hname : strlen name < kfsMaxName) :
    ∃ new i s', kfsCreate s root name = (new, s') ∧ Created s root name new i s' := by
  obtain ⟨new, s₁, s', hcreate, hhung, hmap, hino, hinode, hmap', hino'⟩ :=
    kfsCreate_hung hd hd0 hroom.1 hroot hname
  rw [← hmap] at hi hi0
  obtain ⟨i, s₂, halloc, hi', hiFree, hlowI, hsetI, hcount, hinoOther, -, -⟩ :=
    kfsAllocInode_spec hi hi0 (hmap ▸ hroom.2) .file
  rw [halloc] at hinode hmap' hino'
  rw [hmap] at hiFree hsetI
  have hmaxI : kfsMaxInode = 256 := rfl
  have hu8i : u8 i = i := Nat.mod_eq_of_lt (by omega)
  exact ⟨new, i, s', hcreate,
    { new_lt := hhung.new_lt
      new_free := hhung.new_free
      i_lt := hi'
      i_free := hiFree
      lowDentry := hhung.lowDentry
      lowInode := by rwa [hmap']
      dentrySet := hhung.dentrySet
      inodeSet := by rwa [hmap']
      atNew := by
        obtain ⟨j, named, hnew, hnamed⟩ := hhung.atNew
        rw [hnew, hu8i] at hinode
        have hj : j = i := hinode
        exact ⟨named, hj ▸ hnew, hnamed⟩
      atRoot := hhung.atRoot
      other := hhung.other
      inodeNew := by rwa [hino']
      inodeOther := fun j hj => by rw [hino', hinoOther j hj, hino] }⟩

namespace Hung

variable (h : Hung s root name new s')
include h

theorem allocated_iff : Allocated s' x ↔ x = new ∨ Allocated s x := by
  unfold Allocated
  rw [h.dentrySet, Bool.or_eq_true, decide_eq_true_eq]
  constructor
  · rintro ⟨hlt, rfl | hset⟩
    · exact .inl rfl
    · exact .inr ⟨hlt, hset⟩
  · rintro (rfl | ⟨hlt, hset⟩)
    · exact ⟨h.new_lt, .inl rfl⟩
    · exact ⟨hlt, .inr hset⟩

theorem not_allocated : ¬ Allocated s new := by
  intro hall
  exact absurd (h.new_free.symm.trans hall.2) (by decide)

theorem ne_new (hx : Allocated s x) : x ≠ new := by
  rintro rfl
  exact h.not_allocated hx

/-- An old dentry but for its first leaf. -/
theorem dentry_old (hx : x ≠ new) :
    (s'.dentry x).root = (s.dentry x).root ∧ (s'.dentry x).next = (s.dentry x).next ∧
      (s'.dentry x).inode = (s.dentry x).inode ∧ (s'.dentry x).name = (s.dentry x).name := by
  by_cases hroot : x = root
  · rw [hroot, h.atRoot]
    exact ⟨rfl, rfl, rfl, rfl⟩
  · rw [h.other x hx hroot]
    exact ⟨rfl, rfl, rfl, rfl⟩

theorem hasName_new (hw : strlen name < kfsMaxName) : HasName s' new name := by
  obtain ⟨i, named, hnew, hnamed⟩ := h.atNew
  intro k hk
  rw [kfsName_eq (by omega), hnew]
  exact hnamed k hk

theorem hasName_old (htree : IsTree s) (hx : Allocated s x) (hx0 : x ≠ 0) :
    HasName s' x w ↔ HasName s x w := by
  obtain ⟨w₀, hw₀, hname₀⟩ := htree.named x hx hx0
  obtain ⟨-, -, -, hname⟩ := h.dentry_old (h.ne_new hx)
  have hname₀' := hname₀.congr hw₀ hname
  constructor
  · intro hw
    rwa [hw.unique hname₀']
  · intro hw
    rwa [hw.unique hname₀]

theorem depthOf (htree : IsTree s) (hd : DepthOf s d n) (hx : Allocated s d) : DepthOf s' d n := by
  induction hd with
  | root => exact .root
  | @inDir d n hne _ ih =>
    refine .inDir hne ?_
    rw [(h.dentry_old (h.ne_new hx)).1]
    exact ih (htree.above d hx hne)

/-- The lists of the directories. -/
theorem leaves (htree : IsTree s) (hroot : Allocated s root) (hd : Allocated s' d) :
    ∃ l, LeavesOf s' d l := by
  have hne0 : new ≠ 0 := (h.ne_new htree.top).symm
  obtain ⟨i, named, hnew, -⟩ := h.atNew
  have hnext : ∀ x, Allocated s x → nextOf s' x = nextOf s x :=
    fun x hx => (h.dentry_old (h.ne_new hx)).2.1
  rcases h.allocated_iff.mp hd with rfl | hd
  · -- the new leaf is empty
    refine ⟨[], by rw [hnew]; rfl, List.nodup_nil, fun x => ?_⟩
    refine ⟨fun hx => absurd hx List.not_mem_nil, ?_⟩
    rintro ⟨hx, hx0, hxroot⟩
    rcases h.allocated_iff.mp hx with rfl | hx
    · rw [hnew] at hxroot
      have hxroot' : root = x := hxroot
      exact absurd (hxroot' ▸ hroot) h.not_allocated
    · rw [(h.dentry_old (h.ne_new hx)).1] at hxroot
      exact absurd (hxroot ▸ htree.above x hx hx0) h.not_allocated
  · obtain ⟨l, hl⟩ := htree.leaves d hd
    have hold : ∀ x ∈ l, Allocated s x := fun x hx => ((hl.mem_iff x).mp hx).1
    have hmem : ∀ x, Allocated s x → (x ∈ l ↔ x ≠ 0 ∧ (s'.dentry x).root = d) := by
      intro x hx
      rw [hl.mem_iff, and_iff_right hx, (h.dentry_old (h.ne_new hx)).1]
    by_cases hdr : d = root
    · -- the new leaf is the first of its directory
      subst hdr
      refine ⟨new :: l, ?_, List.nodup_cons.mpr ⟨fun hin => h.not_allocated (hold new hin), hl.nodup⟩,
        fun x => ?_⟩
      · rw [h.atRoot]
        refine hl.chain.cons hne0 ?_ fun y hy => hnext y (hold y hy)
        rw [nextOf, hnew]
      · rw [List.mem_cons, h.allocated_iff]
        constructor
        · rintro (rfl | hx)
          · exact ⟨.inl rfl, hne0, by rw [hnew]⟩
          · exact ⟨.inr (hold x hx), (hmem x (hold x hx)).mp hx⟩
        · rintro ⟨rfl | hx, hx'⟩
          · exact .inl rfl
          · exact .inr ((hmem x hx).mpr hx')
    · refine ⟨l, ?_, hl.nodup, fun x => ?_⟩
      · rw [h.other d (h.ne_new hd) hdr]
        exact hl.chain.congr fun y hy => hnext y (hold y hy)
      · rw [h.allocated_iff]
        constructor
        · exact fun hx => ⟨.inr (hold x hx), (hmem x (hold x hx)).mp hx⟩
        · rintro ⟨rfl | hx, hx'⟩
          · rw [hnew] at hx'
            exact absurd hx'.2.symm hdr
          · exact (hmem x hx).mpr hx'

/-- A leaf whose name is new in its directory. -/
theorem tree (htree : IsTree s) (hroot : Allocated s root) (hw : strlen name < kfsMaxName)
    (hnone : ∀ x, IsLeaf s root x → ¬ HasName s x name) : IsTree s' := by
  obtain ⟨i, named, hnew, -⟩ := h.atNew
  have hrootNew : (s'.dentry new).root = root := by rw [hnew]
  have hall : ∀ x, Allocated s x → Allocated s' x := fun x hx => h.allocated_iff.mpr (.inr hx)
  refine
    { top := hall 0 htree.top
      leaves := fun d hd => h.leaves htree hroot hd
      above := fun d hd hd0 => ?_
      named := fun d hd hd0 => ?_
      distinct := fun x y w hx hy hx0 hy0 hxy hwx hwy => ?_
      reaches := fun d hd => ?_ }
  · rcases h.allocated_iff.mp hd with rfl | hd
    · rw [hrootNew]
      exact hall root hroot
    · rw [(h.dentry_old (h.ne_new hd)).1]
      exact hall _ (htree.above d hd hd0)
  · rcases h.allocated_iff.mp hd with rfl | hd
    · exact ⟨name, hw, h.hasName_new hw⟩
    · obtain ⟨w, hlt, hname⟩ := htree.named d hd hd0
      exact ⟨w, hlt, (h.hasName_old htree hd hd0).mpr hname⟩
  · rcases h.allocated_iff.mp hx with rfl | hx <;> rcases h.allocated_iff.mp hy with rfl | hy
    · rfl
    · rw [hrootNew, (h.dentry_old (h.ne_new hy)).1] at hxy
      rw [h.hasName_old htree hy hy0] at hwy
      rw [hwx.unique (h.hasName_new hw)] at hwy
      exact absurd hwy (hnone y ⟨hy, hy0, hxy.symm⟩)
    · rw [hrootNew, (h.dentry_old (h.ne_new hx)).1] at hxy
      rw [h.hasName_old htree hx hx0] at hwx
      rw [hwy.unique (h.hasName_new hw)] at hwx
      exact absurd hwx (hnone x ⟨hx, hx0, hxy⟩)
    · rw [(h.dentry_old (h.ne_new hx)).1, (h.dentry_old (h.ne_new hy)).1] at hxy
      exact htree.distinct x y w hx hy hx0 hy0 hxy ((h.hasName_old htree hx hx0).mp hwx)
        ((h.hasName_old htree hy hy0).mp hwy)
  · rcases h.allocated_iff.mp hd with rfl | hd
    · obtain ⟨n, hn⟩ := htree.reaches root hroot
      refine ⟨n + 1, .inDir (h.ne_new htree.top).symm ?_⟩
      rw [hrootNew]
      exact h.depthOf htree hn hroot
    · obtain ⟨n, hn⟩ := htree.reaches d hd
      exact ⟨n, h.depthOf htree hn hd⟩

end Hung

theorem Created.hung (h : Created s root name new i s') : Hung s root name new s' where
  new_lt := h.new_lt
  new_free := h.new_free
  lowDentry := h.lowDentry
  dentrySet := h.dentrySet
  atNew := by
    obtain ⟨named, hnew⟩ := h.atNew
    exact ⟨i, named, hnew⟩
  atRoot := h.atRoot
  other := h.other

namespace Created

variable (h : Created s root name new i s')
include h

theorem isdir_old (hinv : KfsInv s) (hx : Allocated s x) : kfsIsdir s' x = kfsIsdir s x := by
  obtain ⟨-, hused⟩ := hinv.inodeUsed x hx
  have hne : (s.dentry x).inode ≠ i := by
    intro he
    rw [he, h.i_free] at hused
    exact absurd hused (by decide)
  unfold kfsIsdir
  rw [(h.hung.dentry_old (h.hung.ne_new hx)).2.2.1, h.inodeOther _ hne]

theorem inv (hinv : KfsInv s) (hroot : Allocated s root) (hdir : kfsIsdir s root = true)
    (hw : strlen name < kfsMaxName) (hnone : ∀ x, IsLeaf s root x → ¬ HasName s x name) :
    KfsInv s' := by
  obtain ⟨named, hnew, -⟩ := h.atNew
  have hrootNew : (s'.dentry new).root = root := by rw [hnew]
  have hinodeNew : (s'.dentry new).inode = i := by rw [hnew]
  have hunused : ∀ x, Allocated s x → (s.dentry x).inode ≠ i := by
    intro x hx he
    have hused := (hinv.inodeUsed x hx).2
    rw [he, h.i_free] at hused
    exact absurd hused (by decide)
  refine
    { toIsTree := h.hung.tree hinv.toIsTree hroot hw hnone
      dirs := fun d hd hd0 => ?_
      inodeUsed := fun d hd => ?_
      inodeOnce := fun x y hx hy hxy => ?_
      oneName := fun d hd hd0 => ?_
      lowDentry := h.lowDentry
      lowInode := h.lowInode
      inodeTop := by rw [h.inodeSet, hinv.inodeTop, Bool.or_true] }
  · rcases h.hung.allocated_iff.mp hd with rfl | hd
    · rw [hrootNew, h.isdir_old hinv hroot]
      exact hdir
    · rw [(h.hung.dentry_old (h.hung.ne_new hd)).1, h.isdir_old hinv (hinv.above d hd hd0)]
      exact hinv.dirs d hd hd0
  · rw [h.inodeSet, Bool.or_eq_true, decide_eq_true_eq]
    rcases h.hung.allocated_iff.mp hd with rfl | hd
    · rw [hinodeNew]
      exact ⟨h.i_lt, .inl rfl⟩
    · rw [(h.hung.dentry_old (h.hung.ne_new hd)).2.2.1]
      exact ⟨(hinv.inodeUsed d hd).1, .inr (hinv.inodeUsed d hd).2⟩
  · rcases h.hung.allocated_iff.mp hx with rfl | hx <;> rcases h.hung.allocated_iff.mp hy with rfl | hy
    · rfl
    · rw [hinodeNew, (h.hung.dentry_old (h.hung.ne_new hy)).2.2.1] at hxy
      exact absurd hxy.symm (hunused y hy)
    · rw [hinodeNew, (h.hung.dentry_old (h.hung.ne_new hx)).2.2.1] at hxy
      exact absurd hxy (hunused x hx)
    · rw [(h.hung.dentry_old (h.hung.ne_new hx)).2.2.1, (h.hung.dentry_old (h.hung.ne_new hy)).2.2.1] at hxy
      exact hinv.inodeOnce x y hx hy hxy
  · rcases h.hung.allocated_iff.mp hd with rfl | hd
    · rw [hinodeNew]
      exact h.inodeNew
    · rw [(h.hung.dentry_old (h.hung.ne_new hd)).2.2.1, h.inodeOther _ (hunused d hd)]
      exact hinv.oneName d hd hd0

end Created

/-! ## Open -/

theorem DepthOf.congr (h : DepthOf s d n) (heq : s'.dentry = s.dentry) : DepthOf s' d n := by
  induction h with
  | root => exact .root
  | inDir hne _ ih => exact .inDir hne (by rw [heq]; exact ih)

/-- The invariant is about the dentries, and about the counts and types of their inodes. -/
theorem KfsInv.congr (hinv : KfsInv s) (hden : s'.dentry = s.dentry)
    (hmap : s'.dentryMap = s.dentryMap) (himap : s'.inodeMap = s.inodeMap)
    (hcount : ∀ d, Allocated s d →
      (s'.inode (s.dentry d).inode).count = (s.inode (s.dentry d).inode).count)
    (hdir : ∀ d, Allocated s d → kfsIsdir s d = true → kfsIsdir s' d = true) : KfsInv s' := by
  obtain ⟨dentryMap, inodeMap, fmapMap, pageMap, dentry, inode, fmaps, disk, offset⟩ := s'
  simp only at hden hmap himap
  subst hden hmap himap
  exact
    { top := hinv.top
      leaves := fun d hd => by
        obtain ⟨l, hl⟩ := hinv.leaves d hd
        exact ⟨l, hl.chain, hl.nodup, hl.mem_iff⟩
      above := hinv.above
      named := hinv.named
      distinct := hinv.distinct
      reaches := fun d hd => by
        obtain ⟨n, hn⟩ := hinv.reaches d hd
        exact ⟨n, hn.congr rfl⟩
      dirs := fun d hd hd0 => hdir _ (hinv.above d hd hd0) (hinv.dirs d hd hd0)
      inodeUsed := hinv.inodeUsed
      inodeOnce := hinv.inodeOnce
      oneName := fun d hd hd0 => (hcount d hd).trans (hinv.oneName d hd hd0)
      lowDentry := hinv.lowDentry
      lowInode := hinv.lowInode
      inodeTop := hinv.inodeTop }

/-- The tables with the inode of `root` as a directory. -/
def setDir (s : Kfs) (root : Nat) : Kfs :=
  s.setInode (s.dentry root).inode fun e => { e with type := .dir }

theorem kfsIsdir_setDir (s : Kfs) (root : Nat) : kfsIsdir (setDir s root) root = true := by
  unfold kfsIsdir setDir
  rw [Kfs.setInode_dentry, Kfs.setInode_inode, decide_eq_true_eq]

theorem KfsInv.ofSetDir (hinv : KfsInv s) (root : Nat) : KfsInv (setDir s root) := by
  refine hinv.congr rfl rfl rfl (fun d hd => ?_) fun d hd hdir => ?_
  · exact Kfs.setInode_field KfsInode.count fun _ => rfl
  · by_cases hsame : (s.dentry d).inode = (s.dentry root).inode
    · unfold kfsIsdir setDir
      rw [Kfs.setInode_dentry, hsame, Kfs.setInode_inode, decide_eq_true_eq]
    · unfold kfsIsdir setDir at *
      rwa [Kfs.setInode_dentry, Kfs.setInode_inode_ne hsame]

/-- The dentries that are in use stay, with their inodes. -/
def Kept (s s' : Kfs) : Prop :=
  ∀ x, Allocated s x → Allocated s' x ∧ (s'.dentry x).inode = (s.dentry x).inode

theorem Kept.refl (s : Kfs) : Kept s s := fun _ hx => ⟨hx, rfl⟩

theorem Kept.trans {s₁ s₂ s₃ : Kfs} (h : Kept s₁ s₂) (h' : Kept s₂ s₃) : Kept s₁ s₃ := fun x hx =>
  ⟨(h' x (h x hx).1).1, (h' x (h x hx).1).2.trans (h x hx).2⟩

/-- `kfs_openat` in a directory: the leaf of this name, or a new one. -/
theorem KfsInv.openat (hinv : KfsInv s) (hroot : Allocated s root) (hw : strlen name < kfsMaxName)
    (hroom : kfsFind s root name = some none → Room s) :
    ∃ leaf s', kfsOpenat s root name = some (leaf, s') ∧ KfsInv s' ∧ Allocated s' leaf ∧
      Kept s s' ∧ ∀ x, kfsFind s root name = some (some x) →
        leaf = x ∧ s'.dentry = s.dentry ∧ s'.dentryMap = s.dentryMap := by
  have hinv' := hinv.ofSetDir root
  rcases kfsFind_spec hinv.toIsTree hroot name with ⟨x, hfind, hleaf, -⟩ | ⟨hfind, hnone⟩
  · refine ⟨x, setDir s root, ?_, hinv', hleaf.1, Kept.refl s, fun y hy => ?_⟩
    · rw [kfsOpenat, hfind]
      rfl
    · rw [hfind, Option.some.injEq, Option.some.injEq] at hy
      exact ⟨hy, rfl, rfl⟩
  · obtain ⟨new, i, s', heq, hcreated⟩ := kfsCreate_spec (s := setDir s root) hinv'.lowDentry
      hinv'.lowInode hinv'.top.2 hinv'.inodeTop (hroom hfind) hroot hw
    refine ⟨new, s', ?_, hcreated.inv hinv' hroot (kfsIsdir_setDir s root) hw hnone,
      hcreated.hung.allocated_iff.mpr (.inl rfl), fun x hx => ?_, fun y hy => ?_⟩
    · rw [kfsOpenat, hfind]
      exact congrArg some heq
    · exact ⟨hcreated.hung.allocated_iff.mpr (.inr hx), (hcreated.hung.dentry_old (hcreated.hung.ne_new hx)).2.2.1⟩
    · rw [hfind, Option.some.injEq] at hy
      exact absurd hy (by simp)

theorem kfsFind_congr (heq : s'.dentry = s.dentry) (root : Nat) (name : CStr) :
    kfsFind s' root name = kfsFind s root name := by
  have hloop : ∀ fuel leaf, kfsFindLoop s' name fuel leaf = kfsFindLoop s name fuel leaf := by
    intro fuel
    induction fuel with
    | zero => exact fun _ => rfl
    | succ fuel ih =>
      intro leaf
      have hname : kfsName s' leaf = kfsName s leaf := by
        funext i
        rw [kfsName, kfsName, heq]
      rw [kfsFindLoop, kfsFindLoop, hname, heq, ih]
  rw [kfsFind, kfsFind, heq, hloop]

theorem kfsLookupLoop_congr (heq : s'.dentry = s.dentry) (fuel : Nat) (next : CStr) (d : Nat) :
    kfsLookupLoop s' fuel next d = kfsLookupLoop s fuel next d := by
  induction fuel generalizing next d with
  | zero => rfl
  | succ fuel ih =>
    rw [kfsLookupLoop, kfsLookupLoop]
    cases kfsGetname next with
    | none => rfl
    | some r =>
      simp only [kfsFind_congr heq, ih]

/-- `kfs_open` below a dentry; a path that names a dentry is found. -/
theorem KfsInv.openLoop (hinv : KfsInv s) {fuel : Nat} {next : CStr} (hd : Allocated s d)
    (hok : OpenOk fuel next d s) :
    ∃ r s', kfsOpenLoop fuel next d s = some (r, s') ∧ KfsInv s' ∧ Allocated s' r ∧
      Kept s s' ∧ ∀ x, kfsLookupLoop s fuel next d = some x →
        r = x ∧ s'.dentry = s.dentry ∧ s'.dentryMap = s.dentryMap := by
  induction fuel generalizing next d s with
  | zero =>
    refine ⟨d, s, rfl, hinv, hd, Kept.refl s, fun x hx => ?_⟩
    rw [kfsLookupLoop, Option.some.injEq] at hx
    exact ⟨hx, rfl, rfl⟩
  | succ fuel ih =>
    rw [kfsOpenLoop, kfsLookupLoop]
    rw [OpenOk] at hok
    cases hget : kfsGetname next with
    | none =>
      refine ⟨d, s, rfl, hinv, hd, Kept.refl s, fun x hx => ?_⟩
      exact ⟨Option.some.inj hx, rfl, rfl⟩
    | some r =>
      obtain ⟨name, next⟩ := r
      simp only [hget] at hok ⊢
      obtain ⟨hw, hroom, hrest⟩ := hok
      obtain ⟨leaf, s₁, hopen, hinv₁, hleaf, hkept₁, hfound⟩ := hinv.openat hd hw hroom
      have hmax : kfsMaxName = 28 := rfl
      have hbuf : kfsMaxComponent = 31 := rfl
      obtain ⟨r, s₂, hloop, hinv₂, hr, hkept₂, hlook⟩ := ih hinv₁ hleaf (hrest _ hopen)
      rw [if_pos (by omega), hopen, Option.bind_eq_bind, Option.bind_some]
      refine ⟨r, s₂, hloop, hinv₂, hr, hkept₁.trans hkept₂, fun x hx => ?_⟩
      obtain ⟨found, hfind, hx⟩ := Option.bind_eq_some_iff.mp hx
      obtain ⟨y, rfl, hx⟩ := Option.bind_eq_some_iff.mp hx
      obtain ⟨rfl, hden, hmap⟩ := hfound y hfind
      obtain ⟨rfl, hden₂, hmap₂⟩ := hlook x (by rw [kfsLookupLoop_congr hden]; exact hx)
      exact ⟨rfl, hden₂.trans hden, hmap₂.trans hmap⟩

/-- `kfs_open` of an absolute path. -/
theorem KfsInv.open_ (hinv : KfsInv s) {path : CStr}
    (hok : ∀ name next, kfsGetname path = some (name, next) → OpenOk (strlen next) next 0 s) :
    ∃ r s', kfsOpen s path = some (r, s') ∧ KfsInv s' ∧ Kept s s' ∧
      ∀ x, Names s path x → r = some x ∧ s'.dentry = s.dentry ∧ s'.dentryMap = s.dentryMap := by
  unfold kfsOpen
  by_cases habs : path.byte 0 = slash
  · rw [if_neg (not_not.mpr habs)]
    cases hget : kfsGetname path with
    | none =>
      refine ⟨none, s, rfl, hinv, Kept.refl s, ?_⟩
      rintro x ⟨-, name, next, hname, -⟩
      rw [hget] at hname
      exact absurd hname (by simp)
    | some r =>
      obtain ⟨name, next⟩ := r
      obtain ⟨r, s₁, hloop, hinv₁, -, hkept, hlook⟩ := hinv.openLoop hinv.top (hok name next hget)
      simp only [hloop, Option.bind_eq_bind, Option.bind_some]
      refine ⟨some r, _, rfl, hinv₁.congr rfl rfl rfl (fun _ _ => rfl) fun _ _ h => h, hkept, ?_⟩
      rintro x ⟨-, name', next', hname, -, hx⟩
      rw [hget, Option.some.injEq, Prod.mk.injEq] at hname
      obtain ⟨rfl, rfl⟩ := hname
      obtain ⟨rfl, hden, hmap⟩ := hlook x hx
      exact ⟨rfl, hden, hmap⟩
  · rw [if_pos habs]
    exact ⟨none, s, rfl, hinv, Kept.refl s, fun x hx => absurd hx.1 habs⟩

/-! ## Unlink -/

/-- The tables without the leaf `d`. -/
structure Removed (s : Kfs) (d : Nat) (s' : Kfs) : Prop where
  lowDentry : Low s'.dentryMap kfsMaxDentry
  dentrySet : ∀ k, s'.dentryMap.bmp.isSet k = (!decide (k = d) && s.dentryMap.bmp.isSet k)
  inodeMap : s'.inodeMap = s.inodeMap
  inode : s'.inode = s.inode
  other : ∀ x, x ≠ d → (s'.dentry x).root = (s.dentry x).root ∧
    (s'.dentry x).inode = (s.dentry x).inode ∧ (s'.dentry x).name = (s.dentry x).name
  leaves : ∀ x l, x ≠ d → LeavesOf s x l →
    Chain 0 (nextOf s') (s'.dentry x).leaf (l.filter (· ≠ d))

/-- The predecessor of `d` in the chain, or 0. -/
theorem kfsFreeDentrySearch_spec {l₁ l₂ : List Nat} {curr prev fuel : Nat}
    (h : Chain 0 (nextOf s) curr (l₁ ++ d :: l₂)) (hnot : d ∉ l₁) (hfuel : l₁.length < fuel) :
    kfsFreeDentrySearch s d fuel curr prev = some (l₁.getLast?.getD prev) := by
  induction l₁ generalizing curr prev fuel with
  | nil =>
    cases fuel with
    | zero => exact absurd hfuel (by simp)
    | succ fuel =>
      have hcurr : curr = d := h.1
      rw [kfsFreeDentrySearch, if_neg (not_not.mpr hcurr)]
      rfl
  | cons x l₁ ih =>
    cases fuel with
    | zero => exact absurd hfuel (by simp)
    | succ fuel =>
      obtain ⟨rfl, -, hl⟩ := h
      rw [List.mem_cons, not_or] at hnot
      rw [kfsFreeDentrySearch, if_pos (Ne.symm hnot.1), List.getLast?_cons, Option.getD_some]
      exact ih hl hnot.2 (by simpa using hfuel)

theorem filter_of_split {l₁ l₂ : List Nat} (h : (l₁ ++ d :: l₂).Nodup) :
    (l₁ ++ d :: l₂).filter (· ≠ d) = l₁ ++ l₂ := by
  rw [List.nodup_append] at h
  have hnot₁ : ∀ x ∈ l₁, x ≠ d := fun x hx => h.2.2 x hx d List.mem_cons_self
  have hnot₂ : ∀ x ∈ l₂, x ≠ d := fun x hx he => (List.nodup_cons.mp h.2.1).1 (he ▸ hx)
  rw [List.filter_append, List.filter_cons_of_neg (by simp),
    List.filter_eq_self.mpr (by simpa using hnot₁), List.filter_eq_self.mpr (by simpa using hnot₂)]

theorem filter_of_not_mem {l : List Nat} (h : d ∉ l) : l.filter (· ≠ d) = l := by
  refine List.filter_eq_self.mpr fun x hx => ?_
  simpa using fun he : x = d => h (he ▸ hx)

/-- The link that `kfs_free_dentry` changes, to `d` in the list of its directory. -/
structure Skipped (s : Kfs) (d : Nat) (s' : Kfs) : Prop where
  dentryMap : s'.dentryMap = s.dentryMap
  inodeMap : s'.inodeMap = s.inodeMap
  inode : s'.inode = s.inode
  same : ∀ x, (s'.dentry x).root = (s.dentry x).root ∧
    (s'.dentry x).inode = (s.dentry x).inode ∧ (s'.dentry x).name = (s.dentry x).name
  leaves : ∀ x l, x ≠ d → ListOf s x l →
    Chain 0 (nextOf s') (s'.dentry x).leaf (l.filter (· ≠ d))

/-- The leaf is the first of its directory. -/
theorem skipped_first {l₂ : List Nat} (hl : ListOf s root (d :: l₂)) :
    Skipped s d (s.setDentry root fun e => { e with leaf := (s.dentry d).next }) := by
  have hnext : ∀ y, nextOf (s.setDentry root fun e => { e with leaf := (s.dentry d).next }) y
      = nextOf s y := fun y => Kfs.setDentry_field KfsDentry.next fun _ => rfl
  refine ⟨rfl, rfl, rfl, fun x => ⟨Kfs.setDentry_field KfsDentry.root fun _ => rfl,
    Kfs.setDentry_field KfsDentry.inode fun _ => rfl,
    Kfs.setDentry_field KfsDentry.name fun _ => rfl⟩, fun x l hx hxl => ?_⟩
  by_cases hroot : x = root
  · subst hroot
    have hnd : ([] ++ d :: l₂).Nodup := hl.nodup
    have hfilter : (d :: l₂).filter (· ≠ d) = l₂ := filter_of_split hnd
    rw [hxl.chain.unique hl.chain, hfilter, Kfs.setDentry_dentry]
    exact hl.chain.2.2.congr fun y _ => hnext y
  · have hnot : d ∉ l := fun hin => by
      have hd := (hxl.leaf d hin).2.2
      have hd' := (hl.leaf d List.mem_cons_self).2.2
      exact hroot (hd.symm.trans hd')
    rw [filter_of_not_mem hnot, Kfs.setDentry_dentry_ne hroot]
    exact hxl.chain.congr fun y _ => hnext y

/-- The leaf stands behind `p`. -/
theorem skipped_behind {l₁ l₂ : List Nat} {p : Nat} (hl : ListOf s root (l₁ ++ p :: d :: l₂)) :
    Skipped s d (s.setDentry p fun e => { e with next := (s.dentry d).next }) := by
  have hnext : ∀ y, y ≠ p →
      nextOf (s.setDentry p fun e => { e with next := (s.dentry d).next }) y = nextOf s y := by
    intro y hy
    rw [nextOf, Kfs.setDentry_dentry_ne hy]
    rfl
  have hroot_of : ∀ y, y ∈ l₁ ++ p :: d :: l₂ → (s.dentry y).root = root :=
    fun y hy => (hl.leaf y hy).2.2
  refine ⟨rfl, rfl, rfl, fun x => ⟨Kfs.setDentry_field KfsDentry.root fun _ => rfl,
    Kfs.setDentry_field KfsDentry.inode fun _ => rfl,
    Kfs.setDentry_field KfsDentry.name fun _ => rfl⟩, fun x l hx hxl => ?_⟩
  have hleaf : ((s.setDentry p fun e => { e with next := (s.dentry d).next }).dentry x).leaf
      = (s.dentry x).leaf := Kfs.setDentry_field KfsDentry.leaf fun _ => rfl
  rw [hleaf]
  by_cases hroot : x = root
  · subst hroot
    have hsplit : l₁ ++ p :: d :: l₂ = (l₁ ++ [p]) ++ d :: l₂ := by simp
    have hfilter : (l₁ ++ p :: d :: l₂).filter (· ≠ d) = l₁ ++ p :: l₂ := by
      have hnd := hl.nodup
      rw [hsplit] at hnd ⊢
      rw [filter_of_split hnd]
      simp
    rw [hxl.chain.unique hl.chain, hfilter]
    refine hl.chain.unlink hl.nodup (fun y hy _ => hnext y hy) ?_
    rw [nextOf, Kfs.setDentry_dentry]
    rfl
  · have hnot : ∀ y, y ∈ l₁ ++ p :: d :: l₂ → y ∉ l := fun y hy hin =>
      hroot ((hxl.leaf y hin).2.2.symm.trans (hroot_of y hy))
    rw [filter_of_not_mem (hnot d (by simp))]
    refine hxl.chain.congr fun y hy => hnext y ?_
    rintro rfl
    exact hnot y (by simp) hy

/-- The tables without the leaf `d`, whatever lists it stands in. -/
structure Cut (s : Kfs) (d : Nat) (s' : Kfs) : Prop where
  lowDentry : Low s'.dentryMap kfsMaxDentry
  dentrySet : ∀ k, s'.dentryMap.bmp.isSet k = (!decide (k = d) && s.dentryMap.bmp.isSet k)
  inodeMap : s'.inodeMap = s.inodeMap
  inode : s'.inode = s.inode
  other : ∀ x, x ≠ d → (s'.dentry x).root = (s.dentry x).root ∧
    (s'.dentry x).inode = (s.dentry x).inode ∧ (s'.dentry x).name = (s.dentry x).name
  lists : ∀ x l, x ≠ d → ListOf s x l → Chain 0 (nextOf s') (s'.dentry x).leaf (l.filter (· ≠ d))

/-- `kfs_free_dentry` of a leaf in the list of its directory. -/
theorem kfsFreeDentry_cut {l : List Nat} (hlow : Low s.dentryMap kfsMaxDentry)
    (hl : ListOf s (s.dentry d).root l) (hd : d ∈ l) :
    ∃ s', kfsFreeDentry s d = some s' ∧ Cut s d s' := by
  obtain ⟨l₁, l₂, rfl⟩ := List.append_of_mem hd
  have hnot₁ : d ∉ l₁ := fun hin =>
    (List.nodup_append.mp hl.nodup).2.2 d hin d List.mem_cons_self rfl
  have hlen := hl.length_le
  rw [List.length_append, List.length_cons] at hlen
  have hsearch : kfsFreeDentrySearch s d kfsMaxDentry (s.dentry (s.dentry d).root).leaf 0
      = some (l₁.getLast?.getD 0) :=
    kfsFreeDentrySearch_spec hl.chain hnot₁ (by omega)
  obtain ⟨s₁, hs₁, hskip⟩ : ∃ s₁, s₁ = (if l₁.getLast?.getD 0 = 0 then
        s.setDentry (s.dentry d).root fun e => { e with leaf := (s.dentry d).next }
      else s.setDentry (l₁.getLast?.getD 0) fun e => { e with next := (s.dentry d).next }) ∧
      Skipped s d s₁ := by
    refine ⟨_, rfl, ?_⟩
    rcases List.eq_nil_or_concat l₁ with rfl | ⟨l, p, rfl⟩
    · exact skipped_first hl
    · have hp0 : p ≠ 0 := hl.chain.ne_null (by simp)
      rw [List.concat_eq_append, List.getLast?_append, List.getLast?_singleton, Option.some_or,
        Option.getD_some, if_neg hp0]
      rw [List.concat_eq_append, List.append_assoc] at hl
      exact skipped_behind hl
  let s₂ : Kfs := s₁.setDentry d fun _ => ⟨0, 0, 0, 0, fun _ => 0⟩
  refine ⟨{ s₂ with dentryMap := kfsFreeBitmap s₂.dentryMap d }, ?_, ?_⟩
  · rw [kfsFreeDentry, hsearch, Option.bind_eq_bind, Option.bind_some]
    simp only [← hs₁, s₂]
  · have hmap : s₂.dentryMap = s.dentryMap := hskip.dentryMap
    have hother : ∀ x, x ≠ d → s₂.dentry x = s₁.dentry x := fun x hx => Kfs.setDentry_dentry_ne hx
    exact
      { lowDentry := by
          rw [hmap]
          exact hlow.free d
        dentrySet := fun k => by
          rw [hmap]
          exact Bitmap.isSet_clear ..
        inodeMap := hskip.inodeMap
        inode := hskip.inode
        other := fun x hx => by
          rw [hother x hx]
          exact hskip.same x
        lists := fun x l hx hxl => by
          rw [hother x hx]
          refine (hskip.leaves x l hx hxl).congr fun y hy => ?_
          have hyd : y ≠ d := by simpa using (List.mem_filter.mp hy).2
          exact congrArg KfsDentry.next (hother y hyd) }

/-- `kfs_free_dentry` of a leaf of the tree. -/
theorem kfsFreeDentry_spec (h : IsTree s) (hlow : Low s.dentryMap kfsMaxDentry)
    (hd : Allocated s d) (hd0 : d ≠ 0) :
    ∃ s', kfsFreeDentry s d = some s' ∧ Removed s d s' := by
  obtain ⟨l, hl⟩ := h.leaves _ (h.above d hd hd0)
  obtain ⟨s', hfree, hcut⟩ := kfsFreeDentry_cut hlow hl.listOf ((hl.mem_iff d).mpr ⟨hd, hd0, rfl⟩)
  exact ⟨s', hfree, hcut.lowDentry, hcut.dentrySet, hcut.inodeMap, hcut.inode, hcut.other,
    fun x l hx hxl => hcut.lists x l hx hxl.listOf⟩

namespace Removed

variable (h : Removed s d s')
include h

theorem allocated_iff : Allocated s' x ↔ x ≠ d ∧ Allocated s x := by
  unfold Allocated
  rw [h.dentrySet, Bool.and_eq_true, Bool.not_eq_true', decide_eq_false_iff_not]
  exact ⟨fun ⟨hlt, hne, hset⟩ => ⟨hne, hlt, hset⟩, fun ⟨hne, hlt, hset⟩ => ⟨hlt, hne, hset⟩⟩

theorem hasName_iff (htree : IsTree s) (hx : Allocated s x) (hx0 : x ≠ 0) (hxd : x ≠ d) :
    HasName s' x w ↔ HasName s x w := by
  obtain ⟨w₀, hw₀, hname₀⟩ := htree.named x hx hx0
  have hname₀' := hname₀.congr hw₀ (h.other x hxd).2.2
  constructor
  · intro hw
    rwa [hw.unique hname₀']
  · intro hw
    rwa [hw.unique hname₀]

theorem isdir_eq (hx : x ≠ d) : kfsIsdir s' x = kfsIsdir s x := by
  rw [kfsIsdir, kfsIsdir, (h.other x hx).2.1, h.inode]

/-- A dentry that is not `d` is not below it. -/
theorem depthOf (htree : IsTree s) (hnone : ∀ x, Allocated s x → x ≠ 0 → (s.dentry x).root ≠ d)
    (hn : DepthOf s x n) (hx : Allocated s x) (hxd : x ≠ d) : DepthOf s' x n := by
  induction hn with
  | root => exact .root
  | @inDir x n hne _ ih =>
    refine .inDir hne ?_
    rw [(h.other x hxd).1]
    exact ih (htree.above x hx hne) (hnone x hx hne)

/-- A leaf that is no directory of another one is gone from the tree. -/
theorem tree (htree : IsTree s) (hd0 : d ≠ 0)
    (hnone : ∀ x, Allocated s x → x ≠ 0 → (s.dentry x).root ≠ d) : IsTree s' where
  top := h.allocated_iff.mpr ⟨hd0.symm, htree.top⟩
  leaves := fun x hx => by
    obtain ⟨hxd, hx⟩ := h.allocated_iff.mp hx
    obtain ⟨l, hl⟩ := htree.leaves x hx
    refine ⟨l.filter (· ≠ d), h.leaves x l hxd hl, hl.nodup.filter _, fun y => ?_⟩
    rw [List.mem_filter, hl.mem_iff, h.allocated_iff, decide_eq_true_eq]
    constructor
    · rintro ⟨⟨hy, hy0, hyx⟩, hyd⟩
      exact ⟨⟨hyd, hy⟩, hy0, (h.other y hyd).1.trans hyx⟩
    · rintro ⟨⟨hyd, hy⟩, hy0, hyx⟩
      exact ⟨⟨hy, hy0, (h.other y hyd).1.symm.trans hyx⟩, hyd⟩
  above := fun x hx hx0 => by
    obtain ⟨hxd, hx⟩ := h.allocated_iff.mp hx
    rw [(h.other x hxd).1]
    exact h.allocated_iff.mpr ⟨hnone x hx hx0, htree.above x hx hx0⟩
  named := fun x hx hx0 => by
    obtain ⟨hxd, hx⟩ := h.allocated_iff.mp hx
    obtain ⟨w, hlt, hw⟩ := htree.named x hx hx0
    exact ⟨w, hlt, (h.hasName_iff htree hx hx0 hxd).mpr hw⟩
  distinct := fun x y w hx hy hx0 hy0 hxy hwx hwy => by
    obtain ⟨hxd, hx⟩ := h.allocated_iff.mp hx
    obtain ⟨hyd, hy⟩ := h.allocated_iff.mp hy
    rw [(h.other x hxd).1, (h.other y hyd).1] at hxy
    exact htree.distinct x y w hx hy hx0 hy0 hxy ((h.hasName_iff htree hx hx0 hxd).mp hwx)
      ((h.hasName_iff htree hy hy0 hyd).mp hwy)
  reaches := fun x hx => by
    obtain ⟨hxd, hx⟩ := h.allocated_iff.mp hx
    obtain ⟨n, hn⟩ := htree.reaches x hx
    exact ⟨n, h.depthOf htree hnone hn hx hxd⟩

theorem inv (hinv : KfsInv s) (hd0 : d ≠ 0)
    (hnone : ∀ x, Allocated s x → x ≠ 0 → (s.dentry x).root ≠ d) : KfsInv s' where
  toIsTree := h.tree hinv.toIsTree hd0 hnone
  dirs := fun x hx hx0 => by
    obtain ⟨hxd, hx⟩ := h.allocated_iff.mp hx
    rw [(h.other x hxd).1, h.isdir_eq (hnone x hx hx0)]
    exact hinv.dirs x hx hx0
  inodeUsed := fun x hx => by
    obtain ⟨hxd, hx⟩ := h.allocated_iff.mp hx
    rw [(h.other x hxd).2.1, h.inodeMap]
    exact hinv.inodeUsed x hx
  inodeOnce := fun x y hx hy hxy => by
    obtain ⟨hxd, hx⟩ := h.allocated_iff.mp hx
    obtain ⟨hyd, hy⟩ := h.allocated_iff.mp hy
    rw [(h.other x hxd).2.1, (h.other y hyd).2.1] at hxy
    exact hinv.inodeOnce x y hx hy hxy
  oneName := fun x hx hx0 => by
    obtain ⟨hxd, hx⟩ := h.allocated_iff.mp hx
    rw [(h.other x hxd).2.1, h.inode]
    exact hinv.oneName x hx hx0
  lowDentry := h.lowDentry
  lowInode := by
    rw [h.inodeMap]
    exact hinv.lowInode
  inodeTop := by
    rw [h.inodeMap]
    exact hinv.inodeTop

end Removed

/-- `kfs_unlink` of a name without leaves. -/
theorem KfsInv.unlink (hinv : KfsInv s) {path : CStr} (hpath : Names s path d) (hd : Allocated s d)
    (hd0 : d ≠ 0) (hnone : ∀ x, Allocated s x → x ≠ 0 → (s.dentry x).root ≠ d) :
    ∃ s', kfsUnlink s path = some s' ∧ KfsInv s' := by
  obtain ⟨habs, name, next, hget, hok, hlook⟩ := hpath
  have hok' : ∀ name' next', kfsGetname path = some (name', next') →
      OpenOk (strlen next') next' 0 s := by
    intro name' next' hget'
    rw [hget, Option.some.injEq, Prod.mk.injEq] at hget'
    rw [← hget'.2]
    exact hok
  obtain ⟨r, s₁, hopen, hinv₁, -, hfound⟩ := hinv.open_ hok'
  obtain ⟨rfl, hden, hmap⟩ := hfound d ⟨habs, name, next, hget, hok, hlook⟩
  have hall : ∀ x, Allocated s₁ x ↔ Allocated s x := fun x => by rw [Allocated, Allocated, hmap]
  have hd₁ := (hall d).mpr hd
  have hnone₁ : ∀ x, Allocated s₁ x → x ≠ 0 → (s₁.dentry x).root ≠ d := fun x hx hx0 => by
    rw [hden]
    exact hnone x ((hall x).mp hx) hx0
  obtain ⟨s₂, hfree, hremoved⟩ := kfsFreeDentry_spec hinv₁.toIsTree hinv₁.lowDentry hd₁ hd0
  have hcount : (s₂.inode (s₁.dentry d).inode).count = 1 := by
    rw [hremoved.inode]
    exact hinv₁.oneName d hd₁ hd0
  have hinv₂ := hremoved.inv hinv₁ hd0 hnone₁
  have hunused : ∀ x, Allocated s₂ x → (s₂.dentry x).inode ≠ (s₁.dentry d).inode := by
    intro x hx he
    obtain ⟨hxd, hx⟩ := hremoved.allocated_iff.mp hx
    rw [(hremoved.other x hxd).2.1] at he
    exact hxd (hinv₁.inodeOnce x d hx hd₁ he)
  refine ⟨s₂.setInode (s₁.dentry d).inode fun e => { e with count := e.count - 1 }, ?_,
    hinv₂.congr rfl rfl rfl (fun x hx => ?_) fun x hx hdir => ?_⟩
  · rw [kfsUnlink, hopen]
    simp only [Option.bind_eq_bind, Option.bind_some, hfree, hcount]
    rfl
  · rw [Kfs.setInode_inode_ne (hunused x hx)]
  · unfold kfsIsdir at hdir ⊢
    rwa [Kfs.setInode_dentry, Kfs.setInode_inode_ne (hunused x hx)]

/-- A path that names a dentry names an allocated one. -/
theorem Names.allocated (hinv : KfsInv s) {path : CStr} (h : Names s path d) : Allocated s d := by
  obtain ⟨-, name, next, -, hok, hlook⟩ := h
  obtain ⟨r, s', -, -, hr, -, hfound⟩ := hinv.openLoop hinv.top hok
  obtain ⟨rfl, -, hmap⟩ := hfound d hlook
  rwa [Allocated, hmap] at hr

theorem kfsInv_start : KfsInv kfsStart := by
  have hdentry : ∀ k, kfsStart.dentryMap.bmp.isSet k = decide (k = 0) := fun k => by
    rw [kfsStart, Bitmap.isSet_set, Bitmap.isSet]
    simp
  have hinode : ∀ k, kfsStart.inodeMap.bmp.isSet k = decide (k = 0) := fun k => by
    rw [kfsStart, Bitmap.isSet_set, Bitmap.isSet]
    simp
  have hall : ∀ x, Allocated kfsStart x → x = 0 := fun x hx => by
    have hset := hx.2
    rwa [hdentry, decide_eq_true_eq] at hset
  have htop : Allocated kfsStart 0 := ⟨by decide, by rw [hdentry]; rfl⟩
  exact
    { top := htop
      leaves := fun d _ => ⟨[], rfl, List.nodup_nil, fun x =>
        ⟨fun hx => absurd hx List.not_mem_nil, fun hx => absurd (hall x hx.1) hx.2.1⟩⟩
      above := fun d _ _ => htop
      distinct := fun x y w hx hy _ _ _ _ _ => (hall x hx).trans (hall y hy).symm
      reaches := fun d hd => ⟨0, by rw [hall d hd]; exact .root⟩
      named := fun d hd hd0 => absurd (hall d hd) hd0
      dirs := fun d hd hd0 => absurd (hall d hd) hd0
      inodeUsed := fun d _ => ⟨by show 0 < kfsMaxInode; decide, by rw [hinode]; rfl⟩
      inodeOnce := fun x y hx hy _ => (hall x hx).trans (hall y hy).symm
      oneName := fun d hd hd0 => absurd (hall d hd) hd0
      lowDentry := ⟨by decide, fun i hi => by
        have hi0 : i = 0 := Nat.lt_one_iff.mp hi
        rw [hdentry, hi0]
        rfl⟩
      lowInode := ⟨by decide, fun i hi => by
        have hi0 : i = 0 := Nat.lt_one_iff.mp hi
        rw [hinode, hi0]
        rfl⟩
      inodeTop := by rw [hinode]; rfl }

/-- Every permitted call returns and keeps the invariant. -/
theorem KfsInv.call (hinv : KfsInv s) {c : KfsRequest} (hc : Permitted s c) :
    ∃ s', kfsDo s c = some s' ∧ KfsInv s' := by
  cases c with
  | open_ path =>
    obtain ⟨r, s', heq, hinv', -⟩ := hinv.open_ hc
    exact ⟨s', by rw [kfsDo, heq, Option.map_some], hinv'⟩
  | openat root name =>
    obtain ⟨hroot, hw, hroom⟩ := hc
    obtain ⟨leaf, s', heq, hinv', -⟩ := hinv.openat hroot hw hroom
    exact ⟨s', by rw [kfsDo, heq, Option.map_some], hinv'⟩
  | unlink path =>
    obtain ⟨d, hpath, hd0, hnone⟩ := hc
    exact hinv.unlink hpath (hpath.allocated hinv) hd0 hnone

/-- What a run keeps. -/
theorem KfsRun.inv (h : KfsRun s) : KfsInv s := by
  induction h with
  | start => exact kfsInv_start
  | call _ hc heq ih =>
    obtain ⟨s', heq', hinv⟩ := ih.call hc
    rw [heq, Option.some.injEq] at heq'
    rwa [heq']

/-! ## The walk -/

/-- `y` is `x` or stands somewhere below it. -/
inductive Under (s : Kfs) (x : Nat) : Nat → Prop where
  | self : Under s x x
  | inDir {y : Nat} : y ≠ 0 → Under s x (s.dentry y).root → Under s x y

theorem DepthOf.unique {m : Nat} (h : DepthOf s d n) (h' : DepthOf s d m) : n = m := by
  induction h generalizing m with
  | root =>
    cases h' with
    | root => rfl
    | inDir hne _ => exact absurd rfl hne
  | inDir hne _ ih =>
    cases h' with
    | root => exact absurd rfl hne
    | inDir _ h' => rw [ih h']

/-- What is below is deeper. -/
theorem Under.depth {y m : Nat} (h : Under s x y) (hx : DepthOf s x n) (hy : DepthOf s y m) :
    n ≤ m ∧ (n = m → x = y) := by
  induction h generalizing m with
  | self => exact ⟨Nat.le_of_eq (hx.unique hy), fun _ => rfl⟩
  | inDir hne _ ih =>
    cases hy with
    | root => exact absurd rfl hne
    | inDir _ hy =>
      have := (ih hy).1
      exact ⟨by omega, fun he => by omega⟩

theorem Under.trans {y z : Nat} (h : Under s x y) (h' : Under s y z) : Under s x z := by
  induction h' with
  | self => exact h
  | inDir hne _ ih => exact .inDir hne ih

/-- Two dentries above one are above each other. -/
theorem Under.linear {y x' : Nat} (h : Under s x y) (h' : Under s x' y) :
    Under s x x' ∨ Under s x' x := by
  induction h with
  | self => exact .inr h'
  | @inDir y hne hxy ih =>
    cases h' with
    | self => exact .inl (.inDir hne hxy)
    | inDir _ h' => exact ih h'

/-- Two dentries at one depth above the same dentry. -/
theorem Under.same {y x' : Nat} (h : Under s x y) (h' : Under s x' y) (hx : DepthOf s x n)
    (hx' : DepthOf s x' n) : x = x' := by
  rcases h.linear h' with hxx' | hx'x
  · exact (hxx'.depth hx hx').2 rfl
  · exact ((hx'x.depth hx' hx).2 rfl).symm

/-- Below a directory: itself, or below one of its leaves. -/
theorem IsTree.under_iff (h : IsTree s) {y : Nat} (hy : Allocated s y) :
    Under s x y ↔ y = x ∨ ∃ z, IsLeaf s x z ∧ Under s z y := by
  constructor
  · intro hxy
    induction hxy with
    | self => exact .inl rfl
    | @inDir y hne _ ih =>
      rcases ih (h.above y hy hne) with heq | ⟨z, hz, hzy⟩
      · exact .inr ⟨y, ⟨hy, hne, heq⟩, .self⟩
      · exact .inr ⟨z, hz, .inDir hne hzy⟩
  · rintro (rfl | ⟨z, ⟨-, hz0, rfl⟩, hzy⟩)
    · exact .self
    · exact (Under.inDir hz0 .self).trans hzy

theorem IsTree.under_top (h : IsTree s) (hd : Allocated s d) : Under s 0 d := by
  obtain ⟨n, hn⟩ := h.reaches d hd
  induction hn with
  | root => exact .self
  | @inDir d n hne _ ih => exact .inDir hne (ih (h.above d hd hne))

/-- A bound of all depths. -/
theorem IsTree.depth_bound (h : IsTree s) :
    ∃ N, ∀ d n, Allocated s d → DepthOf s d n → n ≤ N := by
  have hbelow : ∀ m, ∃ N, ∀ d n, d < m → Allocated s d → DepthOf s d n → n ≤ N := by
    intro m
    induction m with
    | zero => exact ⟨0, fun d n hd => absurd hd (Nat.not_lt_zero d)⟩
    | succ m ih =>
      obtain ⟨N, hN⟩ := ih
      by_cases hm : Allocated s m
      · obtain ⟨k, hk⟩ := h.reaches m hm
        refine ⟨max N k, fun d n hd hall hn => ?_⟩
        rcases Nat.lt_succ_iff_lt_or_eq.mp hd with hlt | rfl
        · exact Nat.le_trans (hN d n hlt hall hn) (Nat.le_max_left ..)
        · rw [hn.unique hk]
          exact Nat.le_max_right ..
      · refine ⟨N, fun d n hd hall hn => ?_⟩
        rcases Nat.lt_succ_iff_lt_or_eq.mp hd with hlt | rfl
        · exact hN d n hlt hall hn
        · exact absurd hall hm
  obtain ⟨N, hN⟩ := hbelow kfsMaxDentry
  exact ⟨N, fun d n hd hn => hN d n hd.1 hd hn⟩

/-- The calls are one for each dentry below the leaves `l`, with its depth. -/
structure Walked (s : Kfs) (l : List Nat) (calls : List KfsCall) : Prop where
  depth : ∀ c ∈ calls, DepthOf s c.dentry c.depth
  mem_iff : ∀ y, y ∈ calls.map KfsCall.dentry ↔ Allocated s y ∧ ∃ x ∈ l, Under s x y
  nodup : (calls.map KfsCall.dentry).Nodup

theorem walked_nil (s : Kfs) : Walked s [] [] where
  depth := fun c hc => absurd hc List.not_mem_nil
  mem_iff := fun y => by simp
  nodup := List.nodup_nil

/-- A leaf, what is below it, and the leaves behind it. -/
theorem Walked.cons (h : IsTree s) {l lx : List Nat} {inner outer : List KfsCall} {pos : Nat}
    (hx : Allocated s x) (hdepth : DepthOf s x n) (hlx : LeavesOf s x lx)
    (hsame : ∀ y ∈ l, Allocated s y ∧ DepthOf s y n) (hnot : x ∉ l)
    (hinner : Walked s lx inner) (houter : Walked s l outer) :
    Walked s (x :: l) (⟨x, n, pos⟩ :: (inner ++ outer)) := by
  have hunder : ∀ y, y ∈ inner.map KfsCall.dentry → Under s x y ∧ y ≠ x := by
    intro y hy
    obtain ⟨hall, z, hz, hzy⟩ := (hinner.mem_iff y).mp hy
    obtain ⟨hzAll, hz0, hzx⟩ := (hlx.mem_iff z).mp hz
    refine ⟨(h.under_iff hall).mpr (.inr ⟨z, ⟨hzAll, hz0, hzx⟩, hzy⟩), ?_⟩
    rintro rfl
    have hzDepth : DepthOf s z (n + 1) := .inDir hz0 (by rw [hzx]; exact hdepth)
    have := (hzy.depth hzDepth hdepth).1
    omega
  have hapart : ∀ y, Under s x y → y ∉ outer.map KfsCall.dentry := by
    intro y hxy hy
    obtain ⟨-, z, hz, hzy⟩ := (houter.mem_iff y).mp hy
    exact hnot ((hxy.same hzy hdepth (hsame z hz).2) ▸ hz)
  refine ⟨fun c hc => ?_, fun y => ?_, ?_⟩
  · rcases List.mem_cons.mp hc with rfl | hc
    · exact hdepth
    · rcases List.mem_append.mp hc with hc | hc
      · exact hinner.depth c hc
      · exact houter.depth c hc
  · rw [List.map_cons, List.map_append, List.mem_cons, List.mem_append, houter.mem_iff]
    constructor
    · rintro (rfl | hy | ⟨hall, z, hz, hzy⟩)
      · exact ⟨hx, y, List.mem_cons_self, .self⟩
      · exact ⟨((hinner.mem_iff y).mp hy).1, x, List.mem_cons_self, (hunder y hy).1⟩
      · exact ⟨hall, z, List.mem_cons_of_mem x hz, hzy⟩
    · rintro ⟨hall, z, hz, hzy⟩
      rcases List.mem_cons.mp hz with rfl | hz
      · rcases (h.under_iff hall).mp hzy with rfl | ⟨u, hu, huy⟩
        · exact .inl rfl
        · exact .inr (.inl ((hinner.mem_iff y).mpr ⟨hall, u, (hlx.mem_iff u).mpr hu, huy⟩))
      · exact .inr (.inr ⟨hall, z, hz, hzy⟩)
  · rw [List.map_cons, List.map_append, List.nodup_cons, List.mem_append, not_or]
    refine ⟨⟨fun hin => (hunder x hin).2 rfl, hapart x .self⟩, ?_⟩
    rw [List.nodup_append]
    refine ⟨hinner.nodup, houter.nodup, fun y hy z hz he => ?_⟩
    exact hapart y (hunder y hy).1 (he ▸ hz)

/-- The room that the walk below directories of height `k` needs. -/
theorem KfsInv.treeCbR (hinv : KfsInv s) {N : Nat}
    (hN : ∀ d n, Allocated s d → DepthOf s d n → n ≤ N) :
    ∀ (k r n : Nat) (l₀ l : List Nat), Allocated s r → kfsIsdir s r = true → DepthOf s r n →
      N ≤ n + k → LeavesOf s r (l₀ ++ l) → ∀ (leaf pos fuel : Nat), Chain 0 (nextOf s) leaf l →
      k * (kfsMaxDentry + 1) + l.length + 1 ≤ fuel →
      ∃ calls, kfsTreeCbR s fuel r (n + 1) pos leaf = some (calls, calls.length) ∧
        Walked s l calls := by
  intro k
  induction k with
  | zero =>
    intro r n l₀ l hr hdir hn hle hl leaf pos fuel hchain hfuel
    cases l with
    | nil =>
      have hleaf : leaf = 0 := hchain
      obtain ⟨fuel, rfl⟩ := Nat.exists_eq_succ_of_ne_zero (show fuel ≠ 0 by omega)
      exact ⟨[], by rw [kfsTreeCbR, if_pos hleaf]; rfl, walked_nil s⟩
    | cons x l =>
      -- a leaf would be too deep
      obtain ⟨hx, hx0, hxr⟩ := (hl.mem_iff x).mp (by simp)
      have := hN x (n + 1) hx (.inDir hx0 (by rw [hxr]; exact hn))
      omega
  | succ k ih =>
    intro r n l₀ l hr hdir hn hle hl
    induction l generalizing l₀ with
    | nil =>
      intro leaf pos fuel hchain hfuel
      have hleaf : leaf = 0 := hchain
      obtain ⟨fuel, rfl⟩ := Nat.exists_eq_succ_of_ne_zero (show fuel ≠ 0 by omega)
      exact ⟨[], by rw [kfsTreeCbR, if_pos hleaf]; rfl, walked_nil s⟩
    | cons x l ihl =>
      intro leaf pos fuel hchain hfuel
      obtain ⟨rfl, hx0, hrest⟩ := hchain
      obtain ⟨hx, -, hxr⟩ := (hl.mem_iff leaf).mp (by simp)
      have hxDepth : DepthOf s leaf (n + 1) := .inDir hx0 (by rw [hxr]; exact hn)
      obtain ⟨fuel, rfl⟩ := Nat.exists_eq_succ_of_ne_zero (show fuel ≠ 0 by omega)
      rw [List.length_cons, Nat.succ_mul] at hfuel
      obtain ⟨lx, hlx⟩ := hinv.leaves leaf hx
      have hlen := hlx.listOf.length_le
      -- the directory of the leaf, when it is one
      obtain ⟨inner, hinner, hwalk⟩ : ∃ inner,
          (if kfsIsdir s leaf then
            (kfsReaddir s leaf leaf).elim (some ([], 0)) fun first =>
              kfsTreeCbR s fuel leaf (n + 1 + 1) 0 first
          else some ([], 0)) = some (inner, inner.length) ∧ Walked s lx inner := by
        by_cases hsub : kfsIsdir s leaf = true
        · have hread : kfsReaddir s leaf leaf = some (s.dentry leaf).leaf := by
            rw [kfsReaddir, hsub, if_neg (by decide), if_pos rfl]
          rw [if_pos hsub, hread, Option.elim_some]
          exact ih leaf (n + 1) [] lx hx hsub hxDepth (by omega) hlx _ 0 fuel hlx.chain (by omega)
        · rw [if_neg hsub]
          have hnil : lx = [] := by
            refine List.eq_nil_iff_forall_not_mem.mpr fun y hy => hsub ?_
            obtain ⟨hyAll, hy0, hyx⟩ := (hlx.mem_iff y).mp hy
            have := hinv.dirs y hyAll hy0
            rwa [hyx] at this
          rw [hnil]
          exact ⟨[], rfl, walked_nil s⟩
      have hne : leaf ≠ r := by
        rintro rfl
        have := hxDepth.unique hn
        omega
      have hread : kfsReaddir s r leaf = some (s.dentry leaf).next := by
        rw [kfsReaddir, hdir, if_neg (by decide), if_neg hne, if_neg (not_not.mpr hxr)]
      have hl' : LeavesOf s r (l₀ ++ [leaf] ++ l) := by
        rwa [List.append_assoc, List.singleton_append]
      obtain ⟨outer, houter, hwalk'⟩ :=
        ihl (l₀ ++ [leaf]) hl' (nextOf s leaf) (pos + 1) fuel hrest
          (by rw [Nat.succ_mul]; omega)
      have hnd := (List.nodup_append.mp hl.nodup).2.1
      refine ⟨⟨leaf, n + 1, pos⟩ :: (inner ++ outer), ?_,
        Walked.cons hinv.toIsTree hx hxDepth hlx (fun y hy => ?_) (List.nodup_cons.mp hnd).1 hwalk
          hwalk'⟩
      · have houter' : kfsTreeCbR s fuel r (n + 1) (pos + 1) (s.dentry leaf).next
            = some (outer, outer.length) := houter
        rw [kfsTreeCbR, if_neg hx0]
        dsimp only
        rw [hinner, hread, Option.bind_some, Option.bind_some, houter', Option.map_some,
          List.length_cons, List.length_append]
        congr 2
        omega
      · obtain ⟨hyAll, hy0, hyr⟩ := (hl.mem_iff y).mp (by simp [hy])
        exact ⟨hyAll, .inDir hy0 (by rw [hyr]; exact hn)⟩

/-- `kfs_tree_cb` of the root, with enough fuel: one call for each allocated dentry. -/
theorem KfsInv.treeCb (hinv : KfsInv s) : ∃ fuel₀, ∀ fuel, fuel₀ ≤ fuel → ∃ calls,
    kfsTreeCb s fuel 0 = some (calls, calls.length) ∧
      (calls.map KfsCall.dentry).Perm
        ((List.range kfsMaxDentry).filter fun d => s.dentryMap.bmp.isSet d) ∧
      ∀ c ∈ calls, DepthOf s c.dentry c.depth := by
  obtain ⟨N, hN⟩ := hinv.depth_bound
  obtain ⟨l, hl⟩ := hinv.leaves 0 hinv.top
  refine ⟨N * (kfsMaxDentry + 1) + l.length + 1, fun fuel hfuel => ?_⟩
  obtain ⟨inner, heq, hwalk⟩ : ∃ inner,
      kfsTreeCb s fuel 0 = some (⟨0, 0, 0⟩ :: inner, inner.length + 1) ∧ Walked s l inner := by
    unfold kfsTreeCb
    by_cases hdir : kfsIsdir s 0 = true
    · have hread : kfsReaddir s 0 0 = some (s.dentry 0).leaf := by
        rw [kfsReaddir, hdir, if_neg (by decide), if_pos rfl]
      obtain ⟨inner, hinner, hwalk⟩ := hinv.treeCbR hN N 0 0 [] l hinv.top hdir .root (by omega) hl
        _ 0 fuel hl.chain hfuel
      rw [hdir, if_neg (by decide), hread]
      refine ⟨inner, ?_, hwalk⟩
      have hinner' : kfsTreeCbR s fuel 0 1 0 (s.dentry 0).leaf = some (inner, inner.length) := hinner
      simp only [hinner', Option.map_some]
      rw [Nat.add_comm]
    · have hnil : l = [] := by
        refine List.eq_nil_iff_forall_not_mem.mpr fun y hy => hdir ?_
        obtain ⟨hyAll, hy0, hyx⟩ := (hl.mem_iff y).mp hy
        have := hinv.dirs y hyAll hy0
        rwa [hyx] at this
      rw [Bool.not_eq_true] at hdir
      rw [hdir, if_pos (by decide), hnil]
      exact ⟨[], rfl, walked_nil s⟩
  refine ⟨⟨0, 0, 0⟩ :: inner, by rw [heq, List.length_cons], ?_, fun c hc => ?_⟩
  · refine (List.perm_ext_iff_of_nodup ?_ (List.nodup_range.filter _)).mpr fun d => ?_
    · rw [List.map_cons, List.nodup_cons]
      refine ⟨fun hin => ?_, hwalk.nodup⟩
      obtain ⟨-, z, hz, hz0⟩ := (hwalk.mem_iff 0).mp hin
      obtain ⟨hzAll, hzne, -⟩ := (hl.mem_iff z).mp hz
      obtain ⟨n, hn⟩ := hinv.reaches z hzAll
      have := (hz0.depth hn .root).1
      exact hzne ((hz0.depth hn .root).2 (by omega))
    · rw [List.map_cons, List.mem_cons, hwalk.mem_iff, List.mem_filter, List.mem_range]
      constructor
      · rintro (rfl | ⟨hall, -⟩)
        · exact hinv.top
        · exact hall
      · intro hall
        rcases (hinv.under_iff hall).mp (hinv.under_top hall) with rfl | ⟨z, hz, hzd⟩
        · exact .inl rfl
        · exact .inr ⟨hall, z, (hl.mem_iff z).mpr hz, hzd⟩
  · rcases List.mem_cons.mp hc with rfl | hc
    · exact .root
    · exact hwalk.depth c hc

/-- In every run the allocated dentries are a tree, the next call returns, and the walk
from the root calls back once for each dentry, with its depth. -/
theorem kfsRun_tree (h : KfsRun s) :
    IsTree s ∧ (∀ c, Permitted s c → ∃ s', kfsDo s c = some s') ∧
      ∃ fuel₀, ∀ fuel, fuel₀ ≤ fuel → ∃ calls,
        kfsTreeCb s fuel 0 = some (calls, calls.length) ∧
          (calls.map KfsCall.dentry).Perm
            ((List.range kfsMaxDentry).filter fun d => s.dentryMap.bmp.isSet d) ∧
          ∀ c ∈ calls, DepthOf s c.dentry c.depth := by
  refine ⟨h.inv.toIsTree, fun c hc => ?_, h.inv.treeCb⟩
  obtain ⟨s', heq, -⟩ := h.inv.call hc
  exact ⟨s', heq⟩

/-- The path `/f`. -/
def slashF : CStr := ⟨[slash, 102], by decide⟩

/-- The name `f`. -/
def nameF : CStr := ⟨[102], by decide⟩

theorem room_start : Room kfsStart := by
  refine ⟨⟨1, by decide, ?_⟩, 1, by decide, ?_⟩
  · decide
  · decide

theorem permitted_slashF : Permitted kfsStart (.open_ slashF) := by
  intro name next hget
  have heq : kfsGetname slashF = some (⟨[], by decide⟩, nameF) := by decide
  rw [heq, Option.some.injEq, Prod.mk.injEq] at hget
  rw [← hget.2]
  have hname : kfsGetname nameF = some (nameF, ⟨[], by decide⟩) := by decide
  show OpenOk 1 nameF 0 kfsStart
  rw [OpenOk]
  simp only [hname]
  exact ⟨by decide, fun _ => room_start, fun _ _ => trivial⟩

/-- The walk after the call that makes `/f`. -/
theorem kfsRun_tree_slashF : ∃ s, kfsDo kfsStart (.open_ slashF) = some s ∧ IsTree s ∧
    ∃ fuel calls, kfsTreeCb s fuel 0 = some (calls, calls.length) := by
  obtain ⟨s, heq⟩ := (kfsRun_tree .start).2.1 (.open_ slashF) permitted_slashF
  obtain ⟨htree, -, fuel, hwalk⟩ := kfsRun_tree (.call .start permitted_slashF heq)
  obtain ⟨calls, hcalls, -⟩ := hwalk fuel (Nat.le_refl fuel)
  exact ⟨s, heq, htree, fuel, calls, hcalls⟩

end

end Ko6.Fs
