import Ko6.Fs.KfsRelease
import Ko6.Lib.Places

set_option autoImplicit false

/-!
# Fs: writes of KFS that fail

A write may need a first fmap, a second level above it, an fmap below that, and a page, and
`kfs_ppage` makes them one after the other; what was made stays when the next one is not
there.  A file that has a first level loses its pages in this way: its fmap is already below
a new one when `kfs_write` returns -1, and `kfs_page` looks at the new one.  Fmaps are lost
when a file is written beyond its size twice.  `mapRun_fails` says in which runs a write
that fails changes no page, and each fmap in use stands at one place.
-/

namespace Ko6.Fs

open Ko6.Lib Ko6.Common

/-! ## Levels -/

/-- What `kfs_ppage` has made of the maps of a file. -/
inductive MapLevel where
  | none
  | one
  | two
  deriving DecidableEq

/-- A place where an fmap is referred to: an inode, or an entry of the first level of one. -/
inductive MapRef where
  | inode (i : Nat)
  | entry (i j : Nat)
  deriving DecidableEq

/-- The fmap at a place, or 0. -/
def refFmap (lev : Nat → MapLevel) (s : Kfs) : MapRef → Nat
  | .inode i => (s.inode i).fmap
  | .entry i j => if lev i = .two ∧ j < 16 then secondMap s i j else 0

def FmapUsed (s : Kfs) (m : Nat) : Prop := m < kfsMaxFmap ∧ s.fmapMap.bmp.isSet m = true

/-- Each fmap in use, fmap 0 apart, is referred to by one inode or one entry. -/
def FmapsOnce (lev : Nat → MapLevel) (s : Kfs) : Prop :=
  ∀ m, m ≠ 0 → FmapUsed s m → ∃ r, refFmap lev s r = m ∧ ∀ r', refFmap lev s r' = m → r' = r

/-- The number of fmaps that are free. -/
def fmapsFree (s : Kfs) : Nat := kfsMaxFmap - (bitsSet s.fmapMap.bmp kfsMaxFmap).card

def PageFree (s : Kfs) : Prop := ∃ p, p < kfsNpgDisk ∧ s.pageMap.bmp.isSet p = false

/-- The level of a file after `kfs_ppage` of the page `k`, with so many fmaps free. -/
def nextLevel (free k : Nat) (level : MapLevel) : MapLevel :=
  if k < 12 ∨ free = 0 then level
  else
    match level with
    | .none => if k < 28 ∨ free = 1 then .one else .two
    | .one => if k < 28 then .one else .two
    | .two => .two

/-! ## Runs -/

/-- The levels agree with the size: a file has no fmap when it has less than 12 full pages,
one level up to 28 pages and two above.  No page of the first 28 is written at two levels,
and the turn from one level to two has its fmaps and its page, or does not begin. -/
structure WriteOk (lev : Nat → MapLevel) (s : Kfs) (i k : Nat) : Prop where
  inMaps : k < 268
  none_iff : lev i = .none ↔ (s.inode i).size / 4096 < 12
  first : k < 28 → lev i ≠ .two
  one : 28 ≤ k → lev i = .one → (s.inode i).size / 4096 < 28
  two : 28 ≤ k → lev i = .two → 28 * 4096 < (s.inode i).size
  turn : 28 ≤ k → lev i = .one → fmapsFree s = 0 ∨ 2 ≤ fmapsFree s ∧ PageFree s

/-- A write is such a write; a size is one that the maps of the file can have; a name that
becomes a link has a file without fmaps; and the count of a file that is removed is not 0. -/
def MapStepOk (lev : Nat → MapLevel) (s : Kfs) : KfsOp → Prop
  | .write d k _ => 12 ≤ u16 k → WriteOk lev s (s.dentry d).inode (u16 k)
  | .setSize d n => n % 2 ^ 24 ≤ 268 * 4096 ∧
      (lev (s.dentry d).inode = .one → n % 2 ^ 24 ≤ 28 * 4096)
  | .link src dst => ∀ x s₁ y s₂, kfsOpen s src = some (some x, s₁) →
      kfsOpen s₁ dst = some (some y, s₂) → lev (s₂.dentry y).inode = .none
  | .unlink path => ∀ d s₁, kfsOpen s path = some (some d, s₁) →
      (s₁.inode (s₁.dentry d).inode).count ≠ 0
  | _ => True

/-- The levels after a call. -/
def levelsAfter (lev : Nat → MapLevel) (s : Kfs) : KfsOp → Nat → MapLevel
  | .write d k _ => Function.update lev (s.dentry d).inode
      (nextLevel (fmapsFree s) (u16 k) (lev (s.dentry d).inode))
  | _ => lev

/-- The tables after a run of such calls, and the levels of the files. -/
inductive MapRun : (Nat → MapLevel) → Kfs → Prop where
  | start : MapRun (fun _ => .none) kfsStart
  | call {lev : Nat → MapLevel} {s s' : Kfs} {c : KfsOp} : MapRun lev s → MapStepOk lev s c →
      kfsOp s c = some s' → MapRun (levelsAfter lev s c) s'

/-- A write that fails leaves what `kfs_read` returns for every page of every file, and each fmap
in use is still referred to once.  The page right behind a file of whole pages is none of
its pages. -/
def FailsAtomically (lev : Nat → MapLevel) (s : Kfs) : Prop :=
  ∀ d k buf, MapStepOk lev s (.write d k buf) → (kfsWrite s d k buf).1 = -1 →
    (∀ d' k' b, k' * 4096 ≠ (s.inode (s.dentry d').inode).size →
      kfsRead (kfsWrite s d k buf).2 d' k' b = kfsRead s d' k' b) ∧
    FmapsOnce (levelsAfter lev s (.write d k buf)) (kfsWrite s d k buf).2

/-! ## What the runs keep -/

/-- The fmaps in use each stand at one place, and the others and fmap 0 list nothing. -/
structure MapInv (lev : Nat → MapLevel) (s : Kfs) : Prop where
  low : Low s.fmapMap kfsMaxFmap
  top : s.fmapMap.bmp.isSet 0 = true
  refs : OnePlace (refFmap lev s) (FmapUsed s)
  none_iff : ∀ i, lev i = .none ↔ (s.inode i).fmap = 0
  clean : ∀ m o, o < 16 → m = 0 ∨ ¬ FmapUsed s m → s.fmaps (16 * m + o) = 0
  size : ∀ i, (s.inode i).size ≤ 268 * 4096
  sizeOne : ∀ i, lev i = .one → (s.inode i).size ≤ 28 * 4096
  lowPage : Low s.pageMap kfsNpgDisk
  topPage : s.pageMap.bmp.isSet 0 = true

/-- All but the fmaps is the same. -/
structure SameRest (s s' : Kfs) : Prop where
  dentry : s'.dentry = s.dentry
  disk : s'.disk = s.disk
  pageMap : s'.pageMap = s.pageMap
  size : ∀ j, (s'.inode j).size = (s.inode j).size
  page : ∀ j, (s'.inode j).page = (s.inode j).page

/-- Each page of each file reads the same. -/
structure SameReads (s s' : Kfs) : Prop where
  dentry : s'.dentry = s.dentry
  disk : s'.disk = s.disk
  size : ∀ j, (s'.inode j).size = (s.inode j).size
  page : ∀ i k, k * 4096 ≠ (s.inode i).size → kfsPage s' i k = kfsPage s i k

section
variable {lev lev' : Nat → MapLevel} {s s' : Kfs} {i j k m n o F d : Nat} {t : KfsBitmap}

theorem SameRest.refl (s : Kfs) : SameRest s s := ⟨rfl, rfl, rfl, fun _ => rfl, fun _ => rfl⟩

theorem SameRest.trans {s₁ s₂ s₃ : Kfs} (h : SameRest s₁ s₂) (h' : SameRest s₂ s₃) :
    SameRest s₁ s₃ where
  dentry := h'.dentry.trans h.dentry
  disk := h'.disk.trans h.disk
  pageMap := h'.pageMap.trans h.pageMap
  size := fun j => (h'.size j).trans (h.size j)
  page := fun j => (h'.page j).trans (h.page j)

theorem sameRest_fmapMap (s : Kfs) (t : KfsBitmap) : SameRest s { s with fmapMap := t } :=
  ⟨rfl, rfl, rfl, fun _ => rfl, fun _ => rfl⟩

theorem sameRest_storeFmap (s : Kfs) (x v : Nat) : SameRest s (s.store (.fmap x) v) :=
  ⟨rfl, rfl, rfl, fun _ => rfl, fun _ => rfl⟩

theorem sameRest_setFmap (s : Kfs) (i fmap : Nat) :
    SameRest s (s.setInode i fun e => { e with fmap := u16 fmap }) where
  dentry := rfl
  disk := rfl
  pageMap := rfl
  size := fun _ => Kfs.setInode_field KfsInode.size fun _ => rfl
  page := fun _ => Kfs.setInode_field KfsInode.page fun _ => rfl

theorem SameReads.refl (s : Kfs) : SameReads s s := ⟨rfl, rfl, fun _ => rfl, fun _ _ _ => rfl⟩

theorem SameReads.trans {s₁ s₂ s₃ : Kfs} (h : SameReads s₁ s₂) (h' : SameReads s₂ s₃) :
    SameReads s₁ s₃ where
  dentry := h'.dentry.trans h.dentry
  disk := h'.disk.trans h.disk
  size := fun j => (h'.size j).trans (h.size j)
  page := fun i k hk => (h'.page i k (by rwa [h.size])).trans (h.page i k hk)

theorem SameReads.read (h : SameReads s s') (b : KfsBuf)
    (hk : k * 4096 ≠ (s.inode (s.dentry d).inode).size) : kfsRead s' d k b = kfsRead s d k b := by
  unfold kfsRead kfsReadPage
  rw [h.dentry, h.page _ k hk, h.disk]

theorem MapInv.fmapsOnce (h : MapInv lev s) : FmapsOnce lev s := by
  intro m hm hused
  obtain ⟨r, hr⟩ := h.refs.found m hm hused
  exact ⟨r, hr, fun r' hr' => h.refs.once r' r (by rwa [hr']) (by rw [hr, hr'])⟩

theorem u16_fmap (h : m < kfsMaxFmap) : u16 m = m :=
  u16_of_lt (Nat.lt_of_lt_of_le h (by decide))

/-- The fmap of an inode, and those of its first level at two levels, are in use. -/
theorem MapInv.fmap_used (h : MapInv lev s) (hi : lev i ≠ .none) :
    (s.inode i).fmap ≠ 0 ∧ FmapUsed s (s.inode i).fmap :=
  have hne : (s.inode i).fmap ≠ 0 := fun h0 => hi ((h.none_iff i).mpr h0)
  ⟨hne, h.refs.used (.inode i) hne⟩

theorem refFmap_entry (hi : lev i = .two) (hj : j < 16) :
    refFmap lev s (.entry i j) = secondMap s i j := if_pos ⟨hi, hj⟩

theorem MapInv.second_used (h : MapInv lev s) (hi : lev i = .two) (hj : j < 16)
    (hne : secondMap s i j ≠ 0) : FmapUsed s (secondMap s i j) := by
  have hused := h.refs.used (.entry i j)
  rw [refFmap_entry hi hj] at hused
  exact hused hne

/-- What a file refers to is not an fmap that is free. -/
theorem MapInv.fmap_ne (h : MapInv lev s) (hF : F ≠ 0) (hfree : ¬ FmapUsed s F) :
    (s.inode i).fmap ≠ F := by
  rintro rfl
  exact hfree (h.refs.used (.inode i) hF)

theorem MapInv.second_ne (h : MapInv lev s) (hF : F ≠ 0) (hfree : ¬ FmapUsed s F)
    (hsize : 28 * 4096 < (s.inode i).size) (hj : j < 16) : secondMap s i j ≠ F := by
  rintro rfl
  cases hlev : lev i with
  | none =>
    refine hF ?_
    rw [secondMap, (h.none_iff i).mp hlev]
    exact h.clean 0 j hj (.inl rfl)
  | one => exact absurd (h.sizeOne i hlev) (Nat.not_le.mpr hsize)
  | two => exact hfree (h.second_used hlev hj hF)

end

/-! ## A new fmap -/

/-- An fmap that was free, and the bitmap without it. -/
structure FreshFmap (s : Kfs) (F : Nat) (t : KfsBitmap) : Prop where
  ne : F ≠ 0
  lt : F < kfsMaxFmap
  unused : ¬ FmapUsed s F
  set : ∀ k, t.bmp.isSet k = (decide (k = F) || s.fmapMap.bmp.isSet k)
  low : Low t kfsMaxFmap

section
variable {lev lev' : Nat → MapLevel} {s s' : Kfs} {i j k m n o F d : Nat} {t : KfsBitmap}

theorem FreshFmap.used_iff (h : FreshFmap s F t) (hmap : s'.fmapMap = t) (n : Nat) :
    FmapUsed s' n ↔ n = F ∨ FmapUsed s n := by
  unfold FmapUsed
  rw [hmap, h.set, Bool.or_eq_true, decide_eq_true_eq]
  constructor
  · rintro ⟨hn, heq | hset⟩
    · exact .inl heq
    · exact .inr ⟨hn, hset⟩
  · rintro (rfl | ⟨hn, hset⟩)
    · exact ⟨h.lt, .inl rfl⟩
    · exact ⟨hn, .inr hset⟩

theorem FreshFmap.free (h : FreshFmap s F t) (s' : Kfs) (hmap : s'.fmapMap = t) :
    fmapsFree s = fmapsFree s' + 1 := by
  have hclear : s.fmapMap.bmp.isSet F = false :=
    Bool.eq_false_of_not_eq_true fun hset => h.unused ⟨h.lt, hset⟩
  have hcard : (bitsSet s'.fmapMap.bmp kfsMaxFmap).card =
      (bitsSet s.fmapMap.bmp kfsMaxFmap).card + 1 :=
    card_bitsSet_set h.lt hclear (by rw [hmap]; exact h.set)
  have hle : (bitsSet s'.fmapMap.bmp kfsMaxFmap).card ≤ kfsMaxFmap := by
    refine Nat.le_trans (Finset.card_le_card (Finset.filter_subset _ _)) ?_
    rw [Finset.card_range]
  unfold fmapsFree
  omega

/-- The rest of `kfs_ppage` gets a fresh fmap, or none is free. -/
theorem kfsNewFmap_cases (hlow : Low s.fmapMap kfsMaxFmap) (htop : s.fmapMap.bmp.isSet 0 = true)
    (rest : Nat → Kfs → Option PagePtr × Kfs) :
    fmapsFree s = 0 ∧ Low { s.fmapMap with cur := kfsMaxFmap } kfsMaxFmap ∧ kfsNewFmap s rest =
        (none, { s with fmapMap := { s.fmapMap with cur := kfsMaxFmap } }) ∨
      ∃ F t, FreshFmap s F t ∧ kfsNewFmap s rest = rest F { s with fmapMap := t } := by
  by_cases hroom : ∃ m, m < kfsMaxFmap ∧ s.fmapMap.bmp.isSet m = false
  · obtain ⟨F, hlt, hclear, halloc, hlow'⟩ := hlow.alloc hroom
    have hne : F ≠ 0 := by
      rintro rfl
      rw [htop] at hclear
      exact absurd hclear (by decide)
    refine .inr ⟨F, ⟨s.fmapMap.bmp.set F, F⟩, ⟨hne, hlt, fun hused => ?_, fun k => Bitmap.isSet_set ..,
      hlow'⟩, ?_⟩
    · rw [hused.2] at hclear
      exact absurd hclear (by decide)
    · rw [kfsNewFmap, kfsAllocFmap, halloc]
      exact if_neg hne
  · have hfull : ∀ m, m < kfsMaxFmap → s.fmapMap.bmp.isSet m = true := fun m hm =>
      Bool.eq_true_of_not_eq_false fun hclear => hroom ⟨m, hm, hclear⟩
    refine .inl ⟨?_, ⟨Nat.le_refl _, hfull⟩, ?_⟩
    · have hall : bitsSet s.fmapMap.bmp kfsMaxFmap = Finset.range kfsMaxFmap :=
        Finset.filter_true_of_mem fun m hm => hfull m (Finset.mem_range.mp hm)
      rw [fmapsFree, hall, Finset.card_range, Nat.sub_self]
    · rw [kfsNewFmap, kfsAllocFmap, kfsAllocBitmap_full hfull hlow.cur_le]
      rfl

/-- The search of a full bitmap moves its start. -/
theorem MapInv.full (h : MapInv lev s) (hlow : Low { s.fmapMap with cur := kfsMaxFmap } kfsMaxFmap) :
    MapInv lev { s with fmapMap := { s.fmapMap with cur := kfsMaxFmap } } ∧
      SameReads s { s with fmapMap := { s.fmapMap with cur := kfsMaxFmap } } := by
  have hrefs : refFmap lev { s with fmapMap := { s.fmapMap with cur := kfsMaxFmap } } =
      refFmap lev s := funext fun r => by cases r <;> rfl
  refine ⟨⟨hlow, h.top, ?_, h.none_iff, h.clean, h.size, h.sizeOne, h.lowPage, h.topPage⟩,
    ⟨rfl, rfl, fun _ => rfl, fun _ _ _ => rfl⟩⟩
  rw [hrefs]
  exact h.refs

/-- What is left to show when a fresh fmap is referred to. -/
theorem MapInv.fresh (h : MapInv lev s) (hF : FreshFmap s F t) (hmap : s'.fmapMap = t)
    (hrest : SameRest s s') (hrefs : OnePlace (refFmap lev' s') (FmapUsed s'))
    (hnone : ∀ x, lev' x = .none ↔ (s'.inode x).fmap = 0)
    (hclean : ∀ m o, o < 16 → m ≠ F → m = 0 ∨ ¬ FmapUsed s m → s'.fmaps (16 * m + o) = 0)
    (hone : ∀ x, lev' x = .one → (s.inode x).size ≤ 28 * 4096) : MapInv lev' s' where
  low := by
    rw [hmap]
    exact hF.low
  top := by
    rw [hmap, hF.set, h.top, Bool.or_true]
  refs := hrefs
  none_iff := hnone
  clean := fun m o ho hm => by
    rw [hF.used_iff hmap, not_or] at hm
    rcases hm with rfl | ⟨hne, hunused⟩
    · exact hclean 0 o ho (Ne.symm hF.ne) (.inl rfl)
    · exact hclean m o ho hne (.inr hunused)
  size := fun x => by
    rw [hrest.size]
    exact h.size x
  sizeOne := fun x hx => by
    rw [hrest.size]
    exact hone x hx
  lowPage := by
    rw [hrest.pageMap]
    exact h.lowPage
  topPage := by
    rw [hrest.pageMap]
    exact h.topPage

/-- A file gets its first fmap. -/
theorem MapInv.connect (h : MapInv lev s) (hF : FreshFmap s F t) (hi : lev i = .none)
    (hsize : (s.inode i).size ≤ 12 * 4096) : MapInv (Function.update lev i .one)
      (({ s with fmapMap := t } : Kfs).setInode i fun e => { e with fmap := u16 F }) := by
  obtain ⟨s', hs'⟩ : ∃ s', s' =
    ({ s with fmapMap := t } : Kfs).setInode i fun e => { e with fmap := u16 F } := ⟨_, rfl⟩
  have hself : (s'.inode i).fmap = F := by
    rw [hs', Kfs.setInode_inode]
    exact u16_fmap hF.lt
  have hother : ∀ x, x ≠ i → (s'.inode x).fmap = (s.inode x).fmap := fun x hx => by
    rw [hs', Kfs.setInode_inode_ne hx]
  have hfmaps : s'.fmaps = s.fmaps := by rw [hs']; rfl
  have hmap : s'.fmapMap = t := by rw [hs']; rfl
  have hlev : ∀ x, x ≠ i → Function.update lev i .one x = lev x := fun x hx =>
    Function.update_of_ne hx ..
  have hrest : SameRest s s' := by
    rw [hs']
    exact (sameRest_fmapMap s t).trans (sameRest_setFmap _ i F)
  rw [← hs']
  refine h.fresh hF hmap hrest ?_ (fun x => ?_) (fun m o ho _ hm => ?_) fun x hx => ?_
  · refine h.refs.add (r := .inode i) ((h.none_iff i).mp hi) hF.unused hself (fun r hr => ?_)
      (hF.used_iff hmap)
    cases r with
    | inode x => exact hother x fun heq => hr (heq ▸ rfl)
    | entry x j =>
      by_cases hx : x = i
      · -- neither level has entries
        rw [refFmap, refFmap, hx, Function.update_self, hi]
        simp
      · rw [refFmap, refFmap, hlev x hx, secondMap, secondMap, hother x hx, hfmaps]
  · by_cases hx : x = i
    · rw [hx, Function.update_self, hself]
      exact iff_of_false (by simp) hF.ne
    · rw [hlev x hx, hother x hx]
      exact h.none_iff x
  · rw [hfmaps]
    exact h.clean m o ho hm
  · by_cases hxi : x = i
    · rw [hxi]
      omega
    · exact h.sizeOne x (by rwa [hlev x hxi] at hx)

/-- The entries of two fmaps are apart. -/
theorem entry_ne (hj : j < 16) (ho : o < 16) (h : m ≠ n) : 16 * m + j ≠ 16 * n + o := by omega

/-- The first fmap of a file goes below a fresh one. -/
theorem MapInv.raise (h : MapInv lev s) (hF : FreshFmap s F t) (hi : lev i = .one) :
    MapInv (Function.update lev i .two)
      ((({ s with fmapMap := t } : Kfs).store (.fmap (16 * F)) (s.inode i).fmap).setInode i
        fun e => { e with fmap := u16 F }) := by
  obtain ⟨s', hs'⟩ : ∃ s', s' =
    (({ s with fmapMap := t } : Kfs).store (.fmap (16 * F)) (s.inode i).fmap).setInode i
      fun e => { e with fmap := u16 F } := ⟨_, rfl⟩
  obtain ⟨hne, hused⟩ := h.fmap_used (i := i) (by rw [hi]; simp)
  have hself : (s'.inode i).fmap = F := by
    rw [hs', Kfs.setInode_inode]
    exact u16_fmap hF.lt
  have hother : ∀ x, x ≠ i → (s'.inode x).fmap = (s.inode x).fmap := fun x hx => by
    rw [hs', Kfs.setInode_inode_ne hx]
    rfl
  have hfmaps : s'.fmaps = Function.update s.fmaps (16 * F) (s.inode i).fmap := by
    rw [hs']
    exact congrArg (Function.update s.fmaps (16 * F)) (u16_fmap hused.1)
  have hzero : s'.fmaps (16 * F + 0) = (s.inode i).fmap := by
    rw [hfmaps]
    exact Function.update_self ..
  have hkept : ∀ x, x ≠ 16 * F → s'.fmaps x = s.fmaps x := fun x hx => by
    rw [hfmaps, Function.update_of_ne hx]
  have hmap : s'.fmapMap = t := by rw [hs']; rfl
  have hlev : ∀ x, x ≠ i → Function.update lev i .two x = lev x := fun x hx =>
    Function.update_of_ne hx ..
  have hrest : SameRest s s' := by
    rw [hs']
    exact ((sameRest_fmapMap s t).trans (sameRest_storeFmap _ _ _)).trans (sameRest_setFmap _ i F)
  rw [← hs']
  refine h.fresh hF hmap hrest ?_ (fun x => ?_) (fun m o ho hm hm' => ?_) fun x hx => ?_
  · -- the old fmap moves from the inode to the entry 0, and the fresh one takes its place
    have hentry : ∀ x j, x ≠ i → refFmap (Function.update lev i .two) s' (.entry x j) =
        refFmap lev s (.entry x j) := by
      intro x j hx
      rw [refFmap, refFmap, hlev x hx, secondMap, secondMap, hother x hx]
      by_cases hj : lev x = .two ∧ j < 16
      · rw [if_pos hj, if_pos hj, hkept]
        exact entry_ne hj.2 (o := 0) (by omega) (h.fmap_ne hF.ne hF.unused)
      · rw [if_neg hj, if_neg hj]
    have hbelow : ∀ j, j < 16 → refFmap (Function.update lev i .two) s' (.entry i j) =
        s'.fmaps (16 * F + j) := fun j hj => by
      rw [refFmap_entry (Function.update_self ..) hj, secondMap, hself]
    have hnone : ∀ j, refFmap lev s (.entry i j) = 0 := fun j =>
      if_neg fun hc => absurd (hi.symm.trans hc.1) (by simp)
    have hmoved : OnePlace (fun r => if r = .inode i then 0 else
        refFmap (Function.update lev i .two) s' r) (FmapUsed s) := by
      refine h.refs.move (.inode i) (.entry i 0) (hnone 0) (if_pos rfl) ?_ fun r hr hr' => ?_
      · rw [if_neg (by simp), hbelow 0 (by omega), hzero]
        rfl
      · rw [if_neg hr]
        cases r with
        | inode x => exact hother x fun heq => hr (heq ▸ rfl)
        | entry x j =>
          by_cases hx : x = i
          · subst hx
            have hj0 : j ≠ 0 := fun heq => hr' (heq ▸ rfl)
            rw [hnone]
            by_cases hj : j < 16
            · rw [hbelow j hj, hkept _ (by omega)]
              exact h.clean F j hj (.inr hF.unused)
            · exact if_neg fun hc => hj hc.2
          · exact hentry x j hx
    refine hmoved.add (r := .inode i) (if_pos rfl) hF.unused hself (fun r hr => (if_neg hr).symm)
      (hF.used_iff hmap)
  · by_cases hx : x = i
    · rw [hx, Function.update_self, hself]
      exact iff_of_false (by simp) hF.ne
    · rw [hlev x hx, hother x hx]
      exact h.none_iff x
  · rw [hkept _ (entry_ne ho (o := 0) (by omega) hm)]
    exact h.clean m o ho hm'
  · by_cases hxi : x = i
    · rw [hxi, Function.update_self] at hx
      exact absurd hx (by simp)
    · exact h.sizeOne x (by rwa [hlev x hxi] at hx)

/-- What the store of a fmap in an entry changes. -/
structure EntrySet (s s' : Kfs) (i j F : Nat) : Prop where
  rest : SameRest s s'
  inode : s'.inode = s.inode
  self : s'.fmaps (16 * (s.inode i).fmap + j) = F
  kept : ∀ x, x ≠ 16 * (s.inode i).fmap + j → s'.fmaps x = s.fmaps x

theorem FreshFmap.entrySet (hF : FreshFmap s F t) (i j : Nat) :
    EntrySet s (({ s with fmapMap := t } : Kfs).store (.fmap (16 * (s.inode i).fmap + j)) F) i j F where
  rest := (sameRest_fmapMap s t).trans (sameRest_storeFmap _ _ _)
  inode := rfl
  self := (Function.update_self ..).trans (u16_fmap hF.lt)
  kept := fun _ hx => Function.update_of_ne hx ..

/-- The cells of every other fmap keep their values. -/
theorem EntrySet.row (h : EntrySet s s' i j F) (hj : j < 16) (ho : o < 16) (hm : m ≠ (s.inode i).fmap) :
    s'.fmaps (16 * m + o) = s.fmaps (16 * m + o) := h.kept _ (entry_ne ho hj hm)

/-- A fresh fmap in an empty entry of the first level. -/
theorem MapInv.hang (h : MapInv lev s) (hF : FreshFmap s F t) (hi : lev i = .two) (hj : j < 16)
    (hempty : secondMap s i j = 0) : MapInv lev
      (({ s with fmapMap := t } : Kfs).store (.fmap (16 * (s.inode i).fmap + j)) F) := by
  obtain ⟨s', hs'⟩ : ∃ s', s' =
    ({ s with fmapMap := t } : Kfs).store (.fmap (16 * (s.inode i).fmap + j)) F := ⟨_, rfl⟩
  obtain ⟨hne, hused⟩ := h.fmap_used (i := i) (by rw [hi]; simp)
  have hmap : s'.fmapMap = t := by rw [hs']; rfl
  have hset : EntrySet s s' i j F := hs' ▸ hF.entrySet i j
  rw [← hs']
  refine h.fresh hF hmap hset.rest ?_ (fun x => ?_) (fun m o ho _ hm => ?_) h.sizeOne
  · refine h.refs.add (r := .entry i j) ((refFmap_entry hi hj).trans hempty) hF.unused ?_
      (fun r hr => ?_) (hF.used_iff hmap)
    · rw [refFmap_entry hi hj, secondMap, hset.inode, hset.self]
    · cases r with
      | inode x => rw [refFmap, refFmap, hset.inode]
      | entry x j' =>
        rw [refFmap, refFmap, secondMap, secondMap, hset.inode]
        by_cases hc : lev x = .two ∧ j' < 16
        · rw [if_pos hc, if_pos hc, hset.kept]
          intro heq
          obtain ⟨hfmap, rfl⟩ : (s.inode x).fmap = (s.inode i).fmap ∧ j' = j := by omega
          refine hr ?_
          have hplace := h.refs.once (.inode x) (.inode i) (by rw [refFmap, hfmap]; exact hne) hfmap
          rw [MapRef.inode.injEq] at hplace
          rw [hplace]
        · rw [if_neg hc, if_neg hc]
  · rw [hset.inode]
    exact h.none_iff x
  · rw [hset.row hj ho]
    · exact h.clean m o ho hm
    · rintro rfl
      rcases hm with h0 | hunused
      · exact hne h0
      · exact hunused hused

end

/-! ## What a new fmap leaves -/

section
variable {lev lev' : Nat → MapLevel} {s s' : Kfs} {i j k m n o F d : Nat} {t : KfsBitmap}

/-- A page whose cells list the same reads the same. -/
theorem MapInv.page_eq (h : MapInv lev s) (hrest : SameRest s s')
    (hk : k * 4096 ≠ (s.inode i).size)
    (hfirst : 12 * 4096 < (s.inode i).size → (s.inode i).size ≤ 28 * 4096 →
      (s'.inode i).fmap = (s.inode i).fmap ∧ ∀ o, o < 16 →
        s'.fmaps (16 * (s.inode i).fmap + o) = s.fmaps (16 * (s.inode i).fmap + o))
    (hsecond : 28 * 4096 < (s.inode i).size → ∀ j, j < 16 → ∀ o, o < 16 →
      s'.fmaps (16 * secondMap s' i j + o) = s.fmaps (16 * secondMap s i j + o)) :
    kfsPage s' i k = kfsPage s i k := by
  have hsize := hrest.size i
  have hle := h.size i
  rw [kfsPage_eq, kfsPage_eq]
  rcases Nat.lt_or_gt_of_ne hk with hin | hbehind
  · have hin' : InFile s' i k := by rwa [InFile, hsize]
    by_cases h12 : k < 12
    · rw [pageCell_direct hin h12, pageCell_direct hin' h12, Option.map_some, Option.map_some,
        Kfs.load, Kfs.load, hrest.page]
    · rw [Nat.not_lt] at h12
      by_cases h28 : (s.inode i).size ≤ 28 * 4096
      · obtain ⟨hfmap, hcells⟩ :=
          hfirst (Nat.lt_of_le_of_lt (Nat.mul_le_mul_right 4096 h12) hin) h28
        rw [pageCell_first hin h12 h28, pageCell_first hin' h12 (by rwa [hsize]), Option.map_some,
          Option.map_some, Kfs.load, Kfs.load, hfmap, hcells _ (by omega)]
      · rw [Nat.not_le] at h28
        rw [pageCell_second hin h12 h28, pageCell_second hin' h12 (by rwa [hsize]), Option.map_some,
          Option.map_some, Kfs.load, Kfs.load, hsecond h28 _ (by omega) _ (by omega)]
  · rw [pageCell_behind hbehind, pageCell_behind (by rwa [hsize])]
    rfl

/-- Entries of a fresh fmap are cells of no page. -/
theorem MapInv.page_fresh (h : MapInv lev s) (hF : FreshFmap s F t) (hrest : SameRest s s')
    (hfmap : 12 * 4096 < (s.inode i).size → (s'.inode i).fmap = (s.inode i).fmap)
    (hkept : ∀ m o, o < 16 → m ≠ F → s'.fmaps (16 * m + o) = s.fmaps (16 * m + o))
    (hk : k * 4096 ≠ (s.inode i).size) : kfsPage s' i k = kfsPage s i k := by
  have hne : (s.inode i).fmap ≠ F := h.fmap_ne hF.ne hF.unused
  refine h.page_eq hrest hk (fun h12 _ => ⟨hfmap h12, fun o ho => hkept _ o ho hne⟩)
    fun h28 j hj o ho => ?_
  have hsecond : secondMap s' i j = secondMap s i j := by
    rw [secondMap, secondMap, hfmap (by omega), hkept _ j hj hne]
  rw [hsecond, hkept _ o ho (h.second_ne hF.ne hF.unused h28 hj)]

/-- A file of at most twelve pages gets a new first fmap. -/
theorem MapInv.setFmap_reads (h : MapInv lev s) (hF : FreshFmap s F t) (hrest : SameRest s s')
    (hsize : (s.inode i).size ≤ 12 * 4096)
    (hfmap : ∀ x, x ≠ i → (s'.inode x).fmap = (s.inode x).fmap)
    (hkept : ∀ m o, o < 16 → m ≠ F → s'.fmaps (16 * m + o) = s.fmaps (16 * m + o)) :
    SameReads s s' where
  dentry := hrest.dentry
  disk := hrest.disk
  size := hrest.size
  page := fun x k hk => by
    refine h.page_fresh hF hrest (fun h12 => hfmap x ?_) hkept hk
    rintro rfl
    omega

theorem MapInv.connect_reads (h : MapInv lev s) (hF : FreshFmap s F t)
    (hsize : (s.inode i).size ≤ 12 * 4096) : SameReads s
      (({ s with fmapMap := t } : Kfs).setInode i fun e => { e with fmap := u16 F }) := by
  refine h.setFmap_reads hF ((sameRest_fmapMap s t).trans (sameRest_setFmap _ i F)) hsize
    (fun x hx => ?_) fun m o _ _ => rfl
  rw [Kfs.setInode_inode_ne hx]

theorem MapInv.raise_reads (h : MapInv lev s) (hF : FreshFmap s F t)
    (hsize : (s.inode i).size ≤ 12 * 4096) : SameReads s
      ((({ s with fmapMap := t } : Kfs).store (.fmap (16 * F)) (s.inode i).fmap).setInode i
        fun e => { e with fmap := u16 F }) := by
  refine h.setFmap_reads hF (((sameRest_fmapMap s t).trans (sameRest_storeFmap _ _ _)).trans
    (sameRest_setFmap _ i F)) hsize (fun x hx => ?_) fun m o ho hm => ?_
  · rw [Kfs.setInode_inode_ne hx]
    rfl
  · exact Function.update_of_ne (entry_ne ho (o := 0) (by omega) hm) ..

/-- An empty entry of the first level and one with a fresh fmap both stand for pages of zeros. -/
theorem MapInv.hang_reads (h : MapInv lev s) (hF : FreshFmap s F t) (hi : lev i = .two) (hj : j < 16)
    (hempty : secondMap s i j = 0)
    (hsize : (s.inode i).size ≤ 12 * 4096 ∨ 28 * 4096 < (s.inode i).size) : SameReads s
      (({ s with fmapMap := t } : Kfs).store (.fmap (16 * (s.inode i).fmap + j)) F) := by
  obtain ⟨s', hs'⟩ : ∃ s', s' =
    ({ s with fmapMap := t } : Kfs).store (.fmap (16 * (s.inode i).fmap + j)) F := ⟨_, rfl⟩
  obtain ⟨hne, hused⟩ := h.fmap_used (i := i) (by rw [hi]; simp)
  have hset : EntrySet s s' i j F := hs' ▸ hF.entrySet i j
  rw [← hs']
  refine ⟨hset.rest.dentry, hset.rest.disk, hset.rest.size, fun x k hk => ?_⟩
  by_cases hx : x = i
  · subst hx
    refine h.page_eq hset.rest hk (fun h12 h28 => by omega) fun h28 j' hj' o ho => ?_
    by_cases hjj : j' = j
    · subst hjj
      rw [hempty, secondMap, hset.inode, hset.self, hset.row hj ho (Ne.symm (h.fmap_ne hF.ne hF.unused)),
        h.clean F o ho (.inr hF.unused), h.clean 0 o ho (.inl rfl)]
    · have hsecond : secondMap s' x j' = secondMap s x j' := by
        rw [secondMap, secondMap, hset.inode, hset.kept _ (by omega)]
      rw [hsecond, hset.row hj ho]
      intro heq
      have hplace := h.refs.once (.entry x j') (.inode x) (by rwa [refFmap_entry hi hj', heq])
        (by rw [refFmap_entry hi hj', heq]; rfl)
      exact absurd hplace (by simp)
  · -- another file refers to the first level of this one nowhere
    have hfmap : (s.inode x).fmap ≠ (s.inode i).fmap := fun heq => by
      have hplace := h.refs.once (.inode x) (.inode i) (by rw [refFmap, heq]; exact hne) heq
      rw [MapRef.inode.injEq] at hplace
      exact hx hplace
    refine h.page_eq hset.rest hk (fun _ _ => ⟨by rw [hset.inode], fun o ho => hset.row hj ho hfmap⟩)
      fun h28 j' hj' o ho => ?_
    have hsecond : secondMap s' x j' = secondMap s x j' := by
      rw [secondMap, secondMap, hset.inode, hset.row hj hj' hfmap]
    rw [hsecond, hset.row hj ho]
    intro heq
    cases hlev : lev x with
    | none =>
      refine hne (heq.symm.trans ?_)
      rw [secondMap, (h.none_iff x).mp hlev]
      exact h.clean 0 j' hj' (.inl rfl)
    | one => exact absurd (h.sizeOne x hlev) (Nat.not_le.mpr h28)
    | two =>
      have hplace := h.refs.once (.entry x j') (.inode i) (by rwa [refFmap_entry hlev hj', heq])
        (by rw [refFmap_entry hlev hj', heq]; rfl)
      exact absurd hplace (by simp)

end

/-! ## The pointer to a page -/

/-- A place for the number of a page, and of no fmap. -/
def Plain (lev : Nat → MapLevel) (s : Kfs) : PagePtr → Prop
  | .inode _ _ => True
  | .fmap x => x / 16 ≠ 0 ∧ FmapUsed s (x / 16) ∧ ∀ i, lev i = .two → (s.inode i).fmap ≠ x / 16

/-- What `kfs_ppage` returns, and the tables. -/
structure Located (lev : Nat → MapLevel) (s : Kfs) (r : Option PagePtr × Kfs) : Prop where
  inv : MapInv lev r.2
  rest : SameRest s r.2
  plain : ∀ ptr, r.1 = some ptr → Plain lev r.2 ptr

section
variable {lev lev' : Nat → MapLevel} {s s' : Kfs} {i j k m n o F d old : Nat} {t : KfsBitmap}

theorem Located.of_ptr (h : MapInv lev s') (hrest : SameRest s s') {ptr : PagePtr}
    (hplain : Plain lev s' ptr) : Located lev s (some ptr, s') :=
  ⟨h, hrest, fun q hq => by
    rw [Option.some.injEq] at hq
    exact hq ▸ hplain⟩

theorem Located.of_none (h : MapInv lev s') (hrest : SameRest s s') : Located lev s (none, s') :=
  ⟨h, hrest, fun _ hq => absurd hq (by simp)⟩

theorem Located.trans {r : Option PagePtr × Kfs} (h : Located lev s' r) (hrest : SameRest s s') :
    Located lev s r := ⟨h.inv, hrest.trans h.rest, h.plain⟩

theorem MapInv.plain_first (h : MapInv lev s) (hi : lev i = .one) (ho : o < 16) :
    Plain lev s (.fmap (16 * (s.inode i).fmap + o)) := by
  obtain ⟨hne, hused⟩ := h.fmap_used (i := i) (by rw [hi]; simp)
  rw [Plain, show (16 * (s.inode i).fmap + o) / 16 = (s.inode i).fmap by omega]
  refine ⟨hne, hused, fun x hx heq => ?_⟩
  have hplace := h.refs.once (.inode x) (.inode i) (by rw [refFmap, heq]; exact hne) heq
  rw [MapRef.inode.injEq] at hplace
  rw [hplace, hi] at hx
  exact absurd hx (by simp)

theorem MapInv.plain_second (h : MapInv lev s) (hi : lev i = .two) (hj : j < 16) (ho : o < 16)
    (hne : secondMap s i j ≠ 0) : Plain lev s (.fmap (16 * secondMap s i j + o)) := by
  rw [Plain, show (16 * secondMap s i j + o) / 16 = secondMap s i j by omega]
  refine ⟨hne, h.second_used hi hj hne, fun x hx heq => ?_⟩
  have hplace := h.refs.once (.entry i j) (.inode x) (by rwa [refFmap_entry hi hj])
    ((refFmap_entry hi hj).trans heq.symm)
  exact absurd hplace (by simp)

theorem kfsPpage2_eq (s : Kfs) (i n : Nat) : kfsPpage2 s i n =
    if secondMap s i (n / 16) = 0 then
      kfsNewFmap s fun fmap s' => (some (.fmap (16 * u16 fmap + n % 16)),
        s'.store (.fmap (16 * (s.inode i).fmap + n / 16)) fmap)
    else (some (.fmap (16 * secondMap s i (n / 16) + n % 16)), s) := by
  rw [kfsPpage2]
  simp only [load_store_self]
  rfl

/-- At the second level an fmap may be missing. -/
theorem MapInv.ppage2 (h : MapInv lev s) (hi : lev i = .two) (hn : n < 256) :
    Located lev s (kfsPpage2 s i n) ∧
      ((s.inode i).size ≤ 12 * 4096 ∨ 28 * 4096 < (s.inode i).size →
        SameReads s (kfsPpage2 s i n).2) := by
  have hj : n / 16 < 16 := by omega
  have ho : n % 16 < 16 := by omega
  rw [kfsPpage2_eq]
  by_cases hempty : secondMap s i (n / 16) = 0
  · rw [if_pos hempty]
    rcases kfsNewFmap_cases h.low h.top (fun fmap s' => (some (.fmap (16 * u16 fmap + n % 16)),
      s'.store (.fmap (16 * (s.inode i).fmap + n / 16)) fmap)) with
      ⟨-, hlow, heq⟩ | ⟨F, t, hF, heq⟩
    · rw [heq]
      obtain ⟨hinv, hreads⟩ := h.full hlow
      exact ⟨.of_none hinv (sameRest_fmapMap s _), fun _ => hreads⟩
    · rw [heq]
      refine ⟨.of_ptr (h.hang hF hi hj hempty)
        ((sameRest_fmapMap s t).trans (sameRest_storeFmap _ _ _)) ?_,
        h.hang_reads hF hi hj hempty⟩
      have hplain := (h.hang hF hi hj hempty).plain_second (o := n % 16) hi hj ho
      have hat : secondMap (({ s with fmapMap := t } : Kfs).store
          (.fmap (16 * (s.inode i).fmap + n / 16)) F) i (n / 16) = F :=
        (Function.update_self ..).trans (u16_fmap hF.lt)
      rw [hat] at hplain
      rw [u16_fmap hF.lt]
      exact hplain hF.ne
  · rw [if_neg hempty]
    exact ⟨.of_ptr h (.refl s) (h.plain_second hi hj ho hempty), fun _ => .refl s⟩

/-- The second level gives a pointer when it needs no fmap or finds one. -/
theorem MapInv.ppage2_isSome (h : MapInv lev s) (hfree : 0 < fmapsFree s) :
    (kfsPpage2 s i n).1 ≠ none := by
  rw [kfsPpage2_eq]
  by_cases hempty : secondMap s i (n / 16) = 0
  · rw [if_pos hempty]
    rcases kfsNewFmap_cases h.low h.top (fun fmap s' => (some (.fmap (16 * u16 fmap + n % 16)),
      s'.store (.fmap (16 * (s.inode i).fmap + n / 16)) fmap)) with ⟨hzero, -⟩ | ⟨F, t, -, heq⟩
    · omega
    · rw [heq]
      simp
  · rw [if_neg hempty]
    simp

/-- The turn from one level to two. -/
theorem MapInv.ppage1_raise (h : MapInv lev s) (hi : lev i = .one) (hn : 16 ≤ n) (hn' : n < 256)
    (hold : old < 28) :
    (fmapsFree s = 0 ∧ Located lev s (kfsPpage1 s i n old) ∧ SameReads s (kfsPpage1 s i n old).2) ∨
      0 < fmapsFree s ∧ Located (Function.update lev i .two) s (kfsPpage1 s i n old) ∧
        ((s.inode i).size ≤ 12 * 4096 → SameReads s (kfsPpage1 s i n old).2) ∧
        (2 ≤ fmapsFree s → (kfsPpage1 s i n old).1 ≠ none) := by
  rw [kfsPpage1, if_neg (by omega), if_pos hold]
  rcases kfsNewFmap_cases h.low h.top (fun fmap s' =>
    kfsPpage2 ((s'.store (.fmap (16 * fmap)) (s'.inode i).fmap).setInode i
      fun e => { e with fmap := u16 fmap }) i n) with ⟨hzero, hlow, heq⟩ | ⟨F, t, hF, heq⟩
  · rw [heq]
    obtain ⟨hinv, hreads⟩ := h.full hlow
    exact .inl ⟨hzero, .of_none hinv (sameRest_fmapMap s _), hreads⟩
  · rw [heq]
    have hfree := hF.free ((({ s with fmapMap := t } : Kfs).store (.fmap (16 * F))
      (s.inode i).fmap).setInode i fun e => { e with fmap := u16 F }) rfl
    have hinv := h.raise hF hi
    have hrest := ((sameRest_fmapMap s t).trans (sameRest_storeFmap _ (16 * F) (s.inode i).fmap)).trans
      (sameRest_setFmap _ i F)
    refine .inr ⟨by omega, ?_, fun hsize => ?_, fun htwo => hinv.ppage2_isSome (by omega)⟩
    · exact (hinv.ppage2 (Function.update_self ..) hn').1.trans hrest
    · have hsize' := hrest.size i
      exact (h.raise_reads hF hsize).trans
        ((hinv.ppage2 (Function.update_self ..) hn').2 (.inl (hsize'.le.trans hsize)))

/-- A file without fmaps. -/
theorem MapInv.ppage_none (h : MapInv lev s) (hi : lev i = .none) (h12 : 12 ≤ k) (h268 : k < 268)
    (hsize : (s.inode i).size / 4096 < 12) :
    Located (Function.update lev i (nextLevel (fmapsFree s) k .none)) s (kfsPpage s i k) ∧
      SameReads s (kfsPpage s i k).2 := by
  have hk12 : ¬ k < 12 := Nat.not_lt.mpr h12
  have hle : (s.inode i).size ≤ 12 * 4096 := by omega
  rw [kfsPpage, if_neg hk12, if_pos hsize]
  rcases kfsNewFmap_cases h.low h.top (fun fmap s' =>
    kfsPpage1 (s'.setInode i fun e => { e with fmap := u16 fmap }) i (k - 12)
      ((s.inode i).size / 4096)) with ⟨hzero, hlow, heq⟩ | ⟨F, t, hF, heq⟩
  · rw [heq]
    obtain ⟨hinv, hreads⟩ := h.full hlow
    have hlev : nextLevel (fmapsFree s) k .none = lev i := by rw [nextLevel, if_pos (.inr hzero), hi]
    rw [hlev, Function.update_eq_self]
    exact ⟨.of_none hinv (sameRest_fmapMap s _), hreads⟩
  · rw [heq]
    have hinv := h.connect hF hi hle
    have hreads := h.connect_reads (i := i) hF hle
    have hrest := (sameRest_fmapMap s t).trans (sameRest_setFmap _ i F)
    have hfree := hF.free
      (({ s with fmapMap := t } : Kfs).setInode i fun e => { e with fmap := u16 F }) rfl
    generalize ({ s with fmapMap := t } : Kfs).setInode i (fun e => { e with fmap := u16 F }) = s₁ at *
    have hsome : ¬ (k < 12 ∨ fmapsFree s = 0) := by omega
    by_cases h28 : k < 28
    · have hlev : nextLevel (fmapsFree s) k .none = .one := by
        rw [nextLevel, if_neg hsome]
        exact if_pos (.inl h28)
      rw [hlev, kfsPpage1, if_pos (by omega)]
      exact ⟨.of_ptr hinv hrest (hinv.plain_first (Function.update_self ..) (by omega)), hreads⟩
    · have hsize' := hrest.size i
      rcases hinv.ppage1_raise (n := k - 12) (Function.update_self ..) (by omega)
        (by omega) (show (s.inode i).size / 4096 < 28 by omega) with
        ⟨hzero, hloc, hreads'⟩ | ⟨hpos, hloc, hreads', -⟩
      · have hlev : nextLevel (fmapsFree s) k .none = .one := by
          rw [nextLevel, if_neg hsome]
          exact if_pos (.inr (by omega))
        rw [hlev]
        exact ⟨hloc.trans hrest, hreads.trans hreads'⟩
      · have hlev : nextLevel (fmapsFree s) k .none = .two := by
          rw [nextLevel, if_neg hsome]
          exact if_neg (by omega)
        rw [hlev]
        rw [Function.update_idem] at hloc
        exact ⟨hloc.trans hrest, hreads.trans (hreads' (hsize'.le.trans hle))⟩

/-- `kfs_ppage` keeps the maps, and every page when it does not end in a new level that has its
page. -/
theorem MapInv.ppage (h : MapInv lev s) (hok : 12 ≤ k → WriteOk lev s i k) :
    Located (Function.update lev i (nextLevel (fmapsFree s) k (lev i))) s (kfsPpage s i k) ∧
      (SameReads s (kfsPpage s i k).2 ∨ (kfsPpage s i k).1 ≠ none ∧ PageFree s) := by
  by_cases h12 : k < 12
  · have hlev : nextLevel (fmapsFree s) k (lev i) = lev i := if_pos (.inl h12)
    rw [hlev, Function.update_eq_self, kfsPpage_direct h12]
    exact ⟨.of_ptr h (.refl s) trivial, .inl (.refl s)⟩
  obtain ⟨h268, hnone, hfirst, hone, htwo, hturn⟩ := hok (Nat.not_lt.mp h12)
  cases hi : lev i with
  | none =>
    obtain ⟨hloc, hreads⟩ := h.ppage_none hi (Nat.not_lt.mp h12) h268 (hnone.mp hi)
    exact ⟨hloc, .inl hreads⟩
  | one =>
    have hold : ¬ (s.inode i).size / 4096 < 12 := fun hlt => by
      rw [hnone.mpr hlt] at hi
      exact absurd hi (by simp)
    rw [kfsPpage, if_neg h12, if_neg hold]
    by_cases h28 : k < 28
    · have hlev : nextLevel (fmapsFree s) k .one = lev i := by
        rw [nextLevel, hi]
        simp [h28]
      rw [hlev, Function.update_eq_self, kfsPpage1, if_pos (by omega)]
      exact ⟨.of_ptr h (.refl s) (h.plain_first hi (by omega)), .inl (.refl s)⟩
    · have hk28 : 28 ≤ k := Nat.not_lt.mp h28
      rcases h.ppage1_raise (n := k - 12) hi (by omega) (by omega) (hone hk28 hi) with
        ⟨hzero, hloc, hreads⟩ | ⟨hpos, hloc, -, hsome⟩
      · have hlev : nextLevel (fmapsFree s) k .one = lev i := by
          rw [nextLevel, if_pos (.inr hzero), hi]
        rw [hlev, Function.update_eq_self]
        exact ⟨hloc, .inl hreads⟩
      · have hlev : nextLevel (fmapsFree s) k .one = .two := by
          rw [nextLevel, if_neg (by omega)]
          exact if_neg h28
        rw [hlev]
        obtain ⟨hfree, hpage⟩ := (hturn hk28 hi).resolve_left (by omega)
        exact ⟨hloc, .inr ⟨hsome hfree, hpage⟩⟩
  | two =>
    have hk28 : 28 ≤ k := Nat.not_lt.mp fun hlt => hfirst hlt hi
    have hsize := htwo hk28 hi
    have hlev : nextLevel (fmapsFree s) k .two = lev i := by
      rw [nextLevel, hi]
      exact ite_self _
    rw [hlev, Function.update_eq_self, kfsPpage, if_neg h12, if_neg (by omega), kfsPpage1,
      if_neg (by omega), if_neg (by omega)]
    obtain ⟨hloc, hreads⟩ := h.ppage2 (n := k - 12) hi (by omega)
    exact ⟨hloc, .inl (hreads (.inr hsize))⟩

end

/-! ## The write -/

section
variable {lev : Nat → MapLevel} {s s' : Kfs} {i k d : Nat} {ptr : PagePtr}

/-- A page number at a plain place. -/
theorem MapInv.cell (h : MapInv lev s) (hplain : Plain lev s ptr)
    (hload : ∀ q, q ≠ ptr → s'.load q = s.load q)
    (hfmap : ∀ j, (s'.inode j).fmap = (s.inode j).fmap)
    (hsize : ∀ j, (s'.inode j).size = (s.inode j).size) (hmap : s'.fmapMap = s.fmapMap)
    (hlow : Low s'.pageMap kfsNpgDisk) (htop : s'.pageMap.bmp.isSet 0 = true) : MapInv lev s' := by
  have hused : ∀ m, FmapUsed s' m ↔ FmapUsed s m := fun m => by rw [FmapUsed, FmapUsed, hmap]
  -- the entries that are read or empty are not that place
  have hentry : ∀ x, .fmap x ≠ ptr → s'.fmaps x = s.fmaps x := fun x hx => hload (.fmap x) hx
  refine ⟨by rw [hmap]; exact h.low, by rw [hmap]; exact h.top, h.refs.congr (fun r => ?_) hused,
    fun i => by rw [hfmap]; exact h.none_iff i, fun m o ho hm => ?_,
    fun i => by rw [hsize]; exact h.size i, fun i hi => by rw [hsize]; exact h.sizeOne i hi, hlow, htop⟩
  · cases r with
    | inode j => exact hfmap j
    | entry j o =>
      rw [refFmap, refFmap, secondMap, secondMap, hfmap]
      by_cases hc : lev j = .two ∧ o < 16
      · rw [if_pos hc, if_pos hc, hentry]
        rintro rfl
        refine hplain.2.2 j hc.1 ?_
        omega
      · rw [if_neg hc, if_neg hc]
  · rw [hused] at hm
    rw [hentry]
    · exact h.clean m o ho hm
    · rintro rfl
      have hrow : (16 * m + o) / 16 = m := by omega
      obtain ⟨hne, hin, -⟩ := hplain
      rw [hrow] at hne hin
      exact hm.elim hne fun hunused => hunused hin

/-- `kfs_alloc_page` gives 0 when no page is free. -/
theorem kfsAllocPage_low (hlow : Low s.pageMap kfsNpgDisk) (htop : s.pageMap.bmp.isSet 0 = true) :
    Low (kfsAllocPage s).2.pageMap kfsNpgDisk ∧ (kfsAllocPage s).2.pageMap.bmp.isSet 0 = true ∧
      ((kfsAllocPage s).1 = 0 ↔ ¬ PageFree s) := by
  by_cases hfree : PageFree s
  · obtain ⟨r, hlt, hclear, halloc, hlow'⟩ := hlow.alloc hfree
    rw [kfsAllocPage, halloc]
    refine ⟨hlow', ?_, iff_of_false (fun h0 => ?_) (not_not.mpr hfree)⟩
    · show (s.pageMap.bmp.set r).isSet 0 = true
      rw [Bitmap.isSet_set, htop, Bool.or_true]
    · have hr0 : r = 0 := (u16_of_lt hlt).symm.trans h0
      rw [hr0, htop] at hclear
      exact absurd hclear (by decide)
  · have hfull : ∀ p, p < kfsNpgDisk → s.pageMap.bmp.isSet p = true := fun p hp =>
      Bool.eq_true_of_not_eq_false fun hclear => hfree ⟨p, hp, hclear⟩
    rw [kfsAllocPage, kfsAllocBitmap_full hfull hlow.cur_le]
    exact ⟨⟨Nat.le_refl _, hfull⟩, htop, iff_of_true rfl hfree⟩

theorem kfsPage_congr (hload : ∀ q, s'.load q = s.load q)
    (hfmap : (s'.inode i).fmap = (s.inode i).fmap) (hsize : (s'.inode i).size = (s.inode i).size) :
    kfsPage s' i k = kfsPage s i k := by
  rw [kfsPage_eq, kfsPage_eq, pageCell_congr hsize hfmap fun _ _ => hload (.fmap _)]
  exact congrArg (Option.map · _) (funext hload)

/-- `kfs_write` to a page that is there does not fail. -/
theorem MapInv.writeCell (h : MapInv lev s) (hplain : Plain lev s ptr) (hnz : s.load ptr ≠ 0)
    (buf : KfsBuf) : MapInv lev (kfsWriteAt s ptr buf).2 ∧ (kfsWriteAt s ptr buf).1 ≠ -1 := by
  obtain ⟨words, hwords⟩ : ∃ words, (kfsWritePage s buf (s.load ptr)).2 = { s with disk := words } := by
    rw [kfsWritePage]
    split
    · exact ⟨s.disk, rfl⟩
    · exact ⟨_, rfl⟩
  have hload : ∀ q, ({ s with disk := words } : Kfs).load q = s.load q := fun q => by
    cases q <;> rfl
  rw [kfsWriteAt]
  simp only [if_neg hnz]
  by_cases hres : (kfsWritePage s buf (s.load ptr)).1 ≠ 0
  · rw [if_pos hres, hwords]
    exact ⟨h.cell hplain (fun q _ => hload q) (fun _ => rfl) (fun _ => rfl) rfl h.lowPage h.topPage,
      by simp⟩
  · rw [if_neg hres, hwords, hload]
    have hstored := sameNames_store (i := 0) (kfsFreePage { s with disk := words } (s.load ptr)) ptr 0
    refine ⟨h.cell hplain (fun q hq => ?_) hstored.fmap (store_size _ _ _) ?_ ?_ ?_, by simp⟩
    · rw [load_store_ne hq, kfsFreePage_load, hload]
    · cases ptr <;> rfl
    · rw [store_pageMap]
      exact h.lowPage.free _
    · rw [store_pageMap]
      show (s.pageMap.bmp.clear (s.load ptr)).isSet 0 = true
      rw [Bitmap.isSet_clear, h.topPage, decide_eq_false (Ne.symm hnz)]
      rfl

/-- `kfs_write` behind `kfs_ppage`: the maps are kept, and it fails only for want of a page, and
then changes none. -/
theorem MapInv.writeAt (h : MapInv lev s) (hplain : Plain lev s ptr) (buf : KfsBuf) :
    MapInv lev (kfsWriteAt s ptr buf).2 ∧ ((kfsWriteAt s ptr buf).1 = -1 →
      SameReads s (kfsWriteAt s ptr buf).2 ∧ ¬ PageFree s) := by
  by_cases hzero : s.load ptr = 0
  · obtain ⟨hlow, htop, hfree⟩ := kfsAllocPage_low h.lowPage h.topPage
    obtain ⟨hpage, hload, hdisk⟩ := kfsAllocPage_spec s
    have hfmapMap : ((kfsAllocPage s).2.store ptr (kfsAllocPage s).1).fmapMap = s.fmapMap := by
      cases ptr <;> rfl
    have hnames : ∀ j, ((kfsAllocPage s).2.inode j) = s.inode j := fun _ => rfl
    have hdentry : (kfsAllocPage s).2.dentry = s.dentry := rfl
    generalize halloc : kfsAllocPage s = r at *
    obtain ⟨page, s₁⟩ := r
    simp only at hlow htop hfree hpage hload hdisk hfmapMap hnames hdentry
    have hlt : page < kfsNpgDisk := by
      rcases hpage with rfl | ⟨hlt, -⟩
      · decide
      · exact hlt
    have hat : (s₁.store ptr page).load ptr = page := by rw [load_store_self, u16_of_lt hlt]
    have hstored := sameNames_store (i := 0) s₁ ptr page
    have hfmap : ∀ j, ((s₁.store ptr page).inode j).fmap = (s.inode j).fmap := fun j => by
      rw [hstored.fmap, hnames]
    have hsize : ∀ j, ((s₁.store ptr page).inode j).size = (s.inode j).size := fun j => by
      rw [store_size, hnames]
    have hinv : MapInv lev (s₁.store ptr page) :=
      h.cell hplain (fun q hq => by rw [load_store_ne hq, hload]) hfmap hsize hfmapMap
        (by rwa [store_pageMap]) (by rwa [store_pageMap])
    by_cases h0 : page = 0
    · -- no page is free
      have hres : kfsWriteAt s ptr buf = (-1, s₁.store ptr page) := by
        rw [kfsWriteAt]
        simp only [if_pos hzero, halloc, hat]
        rw [if_pos h0]
      have hsame : ∀ q, (s₁.store ptr page).load q = s.load q := fun q => by
        by_cases hq : q = ptr
        · rw [hq, hat, h0, hzero]
        · rw [load_store_ne hq, hload]
      rw [hres]
      exact ⟨hinv, fun _ => ⟨⟨hstored.dentry.trans hdentry, (store_disk).trans hdisk, hsize,
        fun i k _ => kfsPage_congr hsame (hfmap i) (hsize i)⟩, hfree.mp h0⟩⟩
    · have hsame : kfsWriteAt s ptr buf = kfsWriteAt (s₁.store ptr page) ptr buf := by
        rw [kfsWriteAt, kfsWriteAt]
        simp only [if_pos hzero, halloc, hat, if_neg h0]
      have hplain' : Plain lev (s₁.store ptr page) ptr := by
        cases ptr with
        | inode i k => trivial
        | fmap x =>
          refine ⟨hplain.1, ?_, fun i hi => ?_⟩
          · rw [FmapUsed, hfmapMap]
            exact hplain.2.1
          · rw [hfmap]
            exact hplain.2.2 i hi
      obtain ⟨hinv', hres⟩ := hinv.writeCell hplain' (by rwa [hat]) buf
      rw [hsame]
      exact ⟨hinv', fun hfail => absurd hfail hres⟩
  · obtain ⟨hinv, hres⟩ := h.writeCell hplain hzero buf
    exact ⟨hinv, fun hfail => absurd hfail hres⟩

/-- `kfs_write` keeps the maps, and changes no page when it fails. -/
theorem MapInv.write {buf : KfsBuf} (h : MapInv lev s) (hok : MapStepOk lev s (.write d k buf)) :
    MapInv (levelsAfter lev s (.write d k buf)) (kfsWrite s d k buf).2 ∧
      ((kfsWrite s d k buf).1 = -1 → SameReads s (kfsWrite s d k buf).2) := by
  obtain ⟨⟨hinv, hrest, hplain⟩, hreads⟩ := h.ppage (k := u16 k) hok
  rw [kfsWrite, levelsAfter]
  generalize kfsPpage s (s.dentry d).inode (u16 k) = r at *
  obtain ⟨_ | ptr, s₁⟩ := r
  · exact ⟨hinv, fun _ => hreads.resolve_right fun hc => hc.1 rfl⟩
  · obtain ⟨hinv', hfails⟩ := hinv.writeAt (hplain ptr rfl) buf
    refine ⟨hinv', fun hfail => ?_⟩
    obtain ⟨hsame, hfull⟩ := hfails hfail
    have hpage : ¬ PageFree s := by
      rw [PageFree, ← hrest.pageMap]
      exact hfull
    exact (hreads.resolve_right fun hc => hpage hc.2).trans hsame

theorem MapInv.failsAtomically (h : MapInv lev s) : FailsAtomically lev s := by
  intro d k buf hok hfail
  obtain ⟨hinv, hreads⟩ := h.write hok
  exact ⟨fun d' k' b hk' => (hreads hfail).read b hk', hinv.fmapsOnce⟩

end

/-! ## The other calls -/

/-- A part of the tables to which dentries, inodes and their bitmaps do not belong. -/
structure Apart {β : Type} (view : Kfs → β) : Prop where
  setDentry : ∀ s d f, view (s.setDentry d f) = view s
  setInode : ∀ s i f, view (s.setInode i f) = view s
  dentryMap : ∀ (s : Kfs) t, view { s with dentryMap := t } = view s
  inodeMap : ∀ (s : Kfs) t, view { s with inodeMap := t } = view s
  offset : ∀ (s : Kfs) f, view { s with offset := f } = view s

section
variable {β : Type} {view : Kfs → β} {s s' : Kfs} {root leaf d r : Nat} {name next path : CStr}

theorem Apart.create (h : Apart view) (s : Kfs) (root : Nat) (name : CStr) :
    view (kfsCreate s root name).2 = view s := by
  have hdentry : view (kfsAllocDentry s name).2 = view s := by
    rw [kfsAllocDentry]
    dsimp only
    split
    · exact h.dentryMap _ _
    · rw [kfsStrcpyName]
      dsimp only
      split
      · rw [h.setDentry, h.dentryMap]
      · rw [h.setDentry, h.setDentry, h.dentryMap]
  have hinode : ∀ s, view (kfsAllocInode s .file).2 = view s := fun s => by
    rw [kfsAllocInode]
    dsimp only
    split
    · exact h.inodeMap _ _
    · rw [h.setInode, h.inodeMap]
  rw [kfsCreate]
  dsimp only
  rw [h.setDentry, h.setDentry, h.setDentry, hinode, hdentry]

theorem Apart.openat (h : Apart view) (hopen : kfsOpenat s root name = some (leaf, s')) :
    view s' = view s := by
  rw [kfsOpenat, Option.bind_eq_bind] at hopen
  obtain ⟨found, -, hopen⟩ := Option.bind_eq_some_iff.mp hopen
  cases found with
  | some x =>
    rw [Option.some.injEq, Prod.mk.injEq] at hopen
    rw [← hopen.2, h.setInode]
  | none =>
    have hs' : (kfsCreate _ root name).2 = s' := congrArg Prod.snd (Option.some.inj hopen)
    rw [← hs', h.create, h.setInode]

theorem Apart.openLoop (h : Apart view) {fuel : Nat}
    (hopen : kfsOpenLoop fuel next d s = some (r, s')) : view s' = view s := by
  induction fuel generalizing next d s with
  | zero =>
    rw [kfsOpenLoop, Option.some.injEq, Prod.mk.injEq] at hopen
    rw [hopen.2]
  | succ fuel ih =>
    rw [kfsOpenLoop] at hopen
    cases hget : kfsGetname next with
    | none =>
      simp only [hget] at hopen
      rw [Option.some.injEq, Prod.mk.injEq] at hopen
      rw [hopen.2]
    | some q =>
      obtain ⟨name, next'⟩ := q
      simp only [hget] at hopen
      split at hopen
      · obtain ⟨⟨leaf, s₁⟩, hat, hopen⟩ := Option.bind_eq_some_iff.mp hopen
        exact (ih hopen).trans (h.openat hat)
      · exact absurd hopen (by simp)

theorem Apart.open_ (h : Apart view) {x : Option Nat} (hopen : kfsOpen s path = some (x, s')) :
    view s' = view s := by
  rw [kfsOpen] at hopen
  split at hopen
  · rw [Option.some.injEq, Prod.mk.injEq] at hopen
    rw [hopen.2]
  · cases hget : kfsGetname path with
    | none =>
      simp only [hget] at hopen
      rw [Option.some.injEq, Prod.mk.injEq] at hopen
      rw [hopen.2]
    | some q =>
      obtain ⟨name, next⟩ := q
      simp only [hget] at hopen
      obtain ⟨⟨d, s₂⟩, hloop, hend⟩ := Option.bind_eq_some_iff.mp hopen
      have hs' : Kfs.mk .. = s' := congrArg Prod.snd (Option.some.inj hend)
      rw [← hs']
      exact (h.offset s₂ _).trans (h.openLoop hloop)

theorem apart_fmapMap : Apart Kfs.fmapMap :=
  ⟨fun _ _ _ => rfl, fun _ _ _ => rfl, fun _ _ => rfl, fun _ _ => rfl, fun _ _ => rfl⟩

end

section
variable {lev : Nat → MapLevel} {s s' : Kfs} {i k d : Nat} {path : CStr} {c : KfsOp}

theorem MapInv.files (h : MapInv lev s) (hsame : SameFiles s s') (hmap : s'.fmapMap = s.fmapMap) :
    MapInv lev s' where
  low := by
    rw [hmap]
    exact h.low
  top := by
    rw [hmap]
    exact h.top
  refs := h.refs.congr (fun r => by
    cases r with
    | inode j => exact hsame.fmap j
    | entry j o => rw [refFmap, refFmap, secondMap, secondMap, hsame.fmap, hsame.fmaps])
    fun m => by rw [FmapUsed, FmapUsed, hmap]
  none_iff := fun i => by rw [hsame.fmap, h.none_iff]
  clean := fun m o ho hm => by
    rw [hsame.fmaps]
    refine h.clean m o ho ?_
    rwa [FmapUsed, ← hmap]
  size := fun i => by
    rw [hsame.size]
    exact h.size i
  sizeOne := fun i hi => by
    rw [hsame.size]
    exact h.sizeOne i hi
  lowPage := by
    rw [hsame.pageMap]
    exact h.lowPage
  topPage := by
    rw [hsame.pageMap]
    exact h.topPage

theorem MapInv.opened (h : MapInv lev s) {x : Option Nat} (hopen : kfsOpen s path = some (x, s')) :
    MapInv lev s' :=
  h.files (kfsDo_files (c := .open_ path) trivial (by rw [kfsDo, hopen]; rfl))
    (apart_fmapMap.open_ hopen)

/-- Another size. -/
theorem MapInv.resize (h : MapInv lev s) {g : KfsInode → KfsInode} {n : Nat}
    (hg : ∀ e, (g e).size = n) (hn : n ≤ 268 * 4096) (hone : lev i = .one → n ≤ 28 * 4096)
    (hfmap : (g (s.inode i)).fmap = (s.inode i).fmap) : MapInv lev (s.setInode i g) := by
  have hkept : ∀ j, ((s.setInode i g).inode j).fmap = (s.inode j).fmap := fun j => by
    by_cases hj : j = i
    · rw [hj, Kfs.setInode_inode, hfmap]
    · rw [Kfs.setInode_inode_ne hj]
  have hsize : ∀ j, ((s.setInode i g).inode j).size = if j = i then n else (s.inode j).size :=
    fun j => by
      by_cases hj : j = i
      · rw [hj, Kfs.setInode_inode, hg, if_pos rfl]
      · rw [Kfs.setInode_inode_ne hj, if_neg hj]
  refine ⟨h.low, h.top, h.refs.congr (fun r => ?_) fun m => Iff.rfl, fun j => ?_, h.clean,
    fun j => ?_, fun j hj => ?_, h.lowPage, h.topPage⟩
  · cases r with
    | inode j => exact hkept j
    | entry j o =>
      rw [refFmap, refFmap, secondMap, secondMap, hkept]
      rfl
  · rw [hkept]
    exact h.none_iff j
  · rw [hsize]
    split
    · exact hn
    · exact h.size j
  · rw [hsize]
    split
    · rename_i hji
      exact hone (hji ▸ hj)
    · exact h.sizeOne j hj

/-- A call of such a run keeps the maps. -/
theorem MapInv.call (h : MapInv lev s) (hok : MapStepOk lev s c) (hc : kfsOp s c = some s') :
    MapInv (levelsAfter lev s c) s' := by
  cases c with
  | open_ path =>
    obtain ⟨⟨x, s₁⟩, hopen, rfl⟩ := Option.map_eq_some_iff.mp hc
    exact h.opened hopen
  | openat root name =>
    obtain ⟨⟨leaf, s₁⟩, hopen, rfl⟩ := Option.map_eq_some_iff.mp hc
    exact h.files (kfsOpenat_files hopen) (apart_fmapMap.openat hopen)
  | link src dst =>
    obtain ⟨⟨y, s₂⟩, hlink, rfl⟩ := Option.map_eq_some_iff.mp hc
    obtain ⟨⟨x, s₁⟩, hopen₁, hlink⟩ := Option.bind_eq_some_iff.mp hlink
    obtain ⟨⟨y', s₂'⟩, hopen₂, hlink⟩ := Option.bind_eq_some_iff.mp hlink
    obtain ⟨a, hx, hlink⟩ := Option.bind_eq_some_iff.mp hlink
    obtain ⟨b, hy, hlink⟩ := Option.bind_eq_some_iff.mp hlink
    have hnone := hok a s₁ b s₂' (by rw [← hx]; exact hopen₁) (by rw [← hy]; exact hopen₂)
    have hinv := (h.opened hopen₁).opened hopen₂
    -- the inode that the name had is erased, and has no fmap
    obtain ⟨s₃, hs₃⟩ : ∃ s₃, s₃ = (s₂'.setDentry b fun e => { e with inode := (s₂'.dentry a).inode
      }).setInode (s₂'.dentry a).inode fun e => { e with count := e.count + 1 } := ⟨_, rfl⟩
    have hsame : SameFiles s₂' s₃ := by
      rw [hs₃]
      exact (sameFiles_setDentry _ _ _).trans
        (sameFiles_setInode _ _ (fun _ => rfl) (fun _ => rfl) fun _ => rfl)
    have hinv₃ := hinv.files hsame (by rw [hs₃]; rfl)
    have herased := hinv₃.resize (i := (s₂'.dentry b).inode) (n := 0)
      (g := fun _ => ⟨.dir, 0, 0, 0, 0, 0, fun _ => 0, 0⟩) (fun _ => rfl) (Nat.zero_le _)
      (fun _ => Nat.zero_le _) ((hinv₃.none_iff _).mp hnone).symm
    have hend : s₂ = kfsFreeInode s₃ (s₂'.dentry b).inode := by
      rw [hs₃]
      exact (congrArg Prod.snd (Option.some.inj hlink)).symm
    rw [hend]
    exact herased.files ⟨rfl, rfl, rfl, fun _ => rfl, fun _ => rfl, fun _ => rfl⟩ rfl
  | unlink path =>
    obtain ⟨⟨x, s₁⟩, hopen, hrest⟩ := Option.bind_eq_some_iff.mp hc
    obtain ⟨d, rfl, hfrees⟩ := Option.bind_eq_some_iff.mp hrest
    obtain ⟨s₂, hfree, hends⟩ := Option.bind_eq_some_iff.mp hfrees
    obtain ⟨hinode, hsame, -, hfmapMap, -⟩ := kfsFreeDentry_keeps hfree
    have hcount := hok d s₁ hopen
    rw [← hinode] at hcount
    simp only [if_neg hcount] at hends
    rw [← Option.some.inj hends]
    refine ((h.opened hopen).files hsame hfmapMap).files ?_ rfl
    exact sameFiles_setInode _ _ (fun _ => rfl) (fun _ => rfl) fun _ => rfl
  | write d k buf =>
    rw [← Option.some.inj hc]
    exact (h.write hok).1
  | setSize d n =>
    rw [← Option.some.inj hc]
    exact h.resize (fun _ => rfl) hok.1 hok.2 rfl
  | chmode i mode =>
    rw [← Option.some.inj hc]
    exact h.files (sameFiles_setInode _ _ (fun _ => rfl) (fun _ => rfl) fun _ => rfl) rfl
  | chowner i owner =>
    rw [← Option.some.inj hc]
    exact h.files (sameFiles_setInode _ _ (fun _ => rfl) (fun _ => rfl) fun _ => rfl) rfl
  | chmtime i mtime =>
    rw [← Option.some.inj hc]
    exact h.files (sameFiles_setInode _ _ (fun _ => rfl) (fun _ => rfl) fun _ => rfl) rfl

theorem mapInv_start : MapInv (fun _ => .none) kfsStart where
  low := ⟨by decide, fun k hk => by
    obtain rfl : k = 0 := Nat.lt_one_iff.mp hk
    decide⟩
  top := by decide
  refs := by
    have hzero : ∀ r, refFmap (fun _ => .none) kfsStart r = 0 := fun r => by
      cases r with
      | inode i => rfl
      | entry i j =>
        rw [refFmap]
        exact if_neg fun hc => absurd hc.1 (by simp)
    refine ⟨fun r hr => absurd (hzero r) hr, fun m hm hused => ?_, fun r _ hr => absurd (hzero r) hr⟩
    have hset : (Bitmap.set (fun _ => 0) 0).isSet m = true := hused.2
    rw [Bitmap.isSet_set, decide_eq_false hm, Bool.false_or] at hset
    rw [Bitmap.isSet_eq] at hset
    simp at hset
  none_iff := fun i => iff_of_true rfl rfl
  clean := fun m o _ _ => rfl
  size := fun i => Nat.zero_le _
  sizeOne := fun i _ => Nat.zero_le _
  lowPage := pageInv_start.low
  topPage := pageInv_start.first

theorem MapRun.inv (h : MapRun lev s) : MapInv lev s := by
  induction h with
  | start => exact mapInv_start
  | call _ hok hc ih => exact ih.call hok hc

end

/-! ## A write that fails midway -/

/-- The tables after any calls. -/
inductive KfsCalls : Kfs → Prop where
  | start : KfsCalls kfsStart
  | call {s s' : Kfs} {c : KfsOp} : KfsCalls s → kfsOp s c = some s' → KfsCalls s'

/-- `/f` has a first fmap whose page 12 is a page of zeros, `/g` is empty, and so many fmaps are
free. -/
structure Midway (s : Kfs) (free : Nat) : Prop where
  low : Low s.fmapMap kfsMaxFmap
  top : s.fmapMap.bmp.isSet 0 = true
  clean : ∀ m o, o < 16 → ¬ FmapUsed s m → s.fmaps (16 * m + o) = 0
  inodeF : (s.dentry 1).inode = 1
  inodeG : (s.dentry 2).inode = 2
  sizeF : (s.inode 1).size = 12 * 4096 + 8
  fmapF : (s.inode 1).fmap = 1
  usedF : FmapUsed s 1
  hole : s.fmaps (16 * 1) = 0
  sizeG : (s.inode 2).size = 0
  free : fmapsFree s = free

/-- A page of zeros. -/
def zeros : KfsBuf := fun _ => 0

section
variable {s s' : Kfs} {free : Nat}

theorem kfsWriteAt_fmapMap (s : Kfs) (ptr : PagePtr) (buf : KfsBuf) :
    (kfsWriteAt s ptr buf).2.fmapMap = s.fmapMap := by
  have hstore : ∀ (s : Kfs) v, (s.store ptr v).fmapMap = s.fmapMap := fun s v => by
    cases ptr <;> rfl
  have hwrite : ∀ (s : Kfs) p, (kfsWritePage s buf p).2.fmapMap = s.fmapMap := fun s p => by
    rw [kfsWritePage]
    split <;> rfl
  have halloc : (kfsAllocPage s).2.fmapMap = s.fmapMap := rfl
  obtain ⟨s₁, hs₁, hmap⟩ : ∃ s₁, s₁ = (if s.load ptr = 0 then
      (kfsAllocPage s).2.store ptr (kfsAllocPage s).1 else s) ∧ s₁.fmapMap = s.fmapMap := by
    refine ⟨_, rfl, ?_⟩
    split
    · rw [hstore, halloc]
    · rfl
  rw [kfsWriteAt]
  simp only [← hs₁]
  split
  · exact hmap
  · split
    · rw [hwrite, hmap]
    · rw [hstore]
      exact (hwrite _ _).trans hmap

/-- Page 12 of `/g` is written behind its size, and the fmap that it gets is lost with the next
such write. -/
theorem Midway.leak (h : Midway s (free + 1)) : Midway (kfsWrite s 2 12 zeros).2 free := by
  obtain ⟨F, t, hF, hnew⟩ := (kfsNewFmap_cases h.low h.top (fun fmap s' =>
    kfsPpage1 (s'.setInode 2 fun e => { e with fmap := u16 fmap }) 2 (12 - 12) (0 / 4096))).resolve_left
      fun hc => absurd (h.free.symm.trans hc.1) (Nat.succ_ne_zero free)
  obtain ⟨s₁, hs₁⟩ : ∃ s₁, s₁ =
    ({ s with fmapMap := t } : Kfs).setInode 2 fun e => { e with fmap := u16 F } := ⟨_, rfl⟩
  have hfmap : (s₁.inode 2).fmap = F := by
    rw [hs₁, Kfs.setInode_inode]
    exact u16_fmap hF.lt
  have hother : s₁.inode 1 = s.inode 1 := by
    rw [hs₁, Kfs.setInode_inode_ne (by decide)]
  have hsize : (s₁.inode 2).size = (s.inode 2).size := by
    rw [hs₁, Kfs.setInode_inode]
  have hppage : kfsPpage s 2 12 = (some (.fmap (16 * F + 0)), s₁) := by
    rw [kfsPpage, if_neg (by decide), if_pos (by rw [h.sizeG]; decide), h.sizeG, hnew, ← hs₁, kfsPpage1,
      if_pos (by decide), hfmap]
  have hwrite : kfsWrite s 2 12 zeros = kfsWriteAt s₁ (.fmap (16 * F + 0)) zeros := by
    rw [kfsWrite, h.inodeG, show u16 12 = 12 from rfl, hppage]
  have hempty : s₁.load (.fmap (16 * F + 0)) = 0 := by
    rw [hs₁]
    exact h.clean F 0 (by decide) hF.unused
  have hspec := kfsWriteAt_spec zeros (show s₁.load (.fmap (16 * F + 0)) < kfsNpgDisk by
    rw [hempty]
    decide)
  have hnames := kfsWriteAt_names 0 s₁ (.fmap (16 * F + 0)) zeros
  have hmap := kfsWriteAt_fmapMap s₁ (.fmap (16 * F + 0)) zeros
  rw [hwrite]
  generalize kfsWriteAt s₁ (.fmap (16 * F + 0)) zeros = r at *
  obtain ⟨res, s'⟩ := r
  obtain ⟨hsame, hsizes⟩ := hnames
  simp only at hspec hsame hsizes hmap ⊢
  have hload : ∀ q, q ≠ .fmap (16 * F + 0) → s'.load q = s₁.load q := by
    rcases hspec with ⟨-, hload, -⟩ | ⟨page, -, -, -, hwrote⟩
    · exact fun q _ => hload q
    · exact hwrote.load
  have hfmaps : ∀ m o, o < 16 → m ≠ F → s'.fmaps (16 * m + o) = s.fmaps (16 * m + o) := by
    intro m o ho hm
    have hne : 16 * m + o ≠ 16 * F + 0 := entry_ne ho (by decide) hm
    refine (hload (.fmap (16 * m + o)) fun heq => hne (PagePtr.fmap.inj heq)).trans ?_
    rw [hs₁]
    rfl
  have hmap' : s'.fmapMap = t := by
    rw [hmap, hs₁]
    rfl
  have hF1 : (1 : Nat) ≠ F := fun heq => hF.unused (heq ▸ h.usedF)
  have hcount := hF.free s' hmap'
  refine ⟨by rw [hmap']; exact hF.low, by rw [hmap', hF.set, h.top, Bool.or_true], fun m o ho hm => ?_,
    ?_, ?_, ?_, ?_, (hF.used_iff hmap' 1).mpr (.inr h.usedF), ?_, ?_, ?_⟩
  · rw [hF.used_iff hmap', not_or] at hm
    rw [hfmaps m o ho hm.1]
    exact h.clean m o ho hm.2
  · rw [hsame.dentry, hs₁]
    exact h.inodeF
  · rw [hsame.dentry, hs₁]
    exact h.inodeG
  · rw [hsizes, hother, h.sizeF]
  · rw [hsame.fmap, hother, h.fmapF]
  · exact (hfmaps 1 0 (by decide) hF1).trans h.hole
  · rw [hsizes, hsize, h.sizeG]
  · rw [h.free] at hcount
    omega

/-- All fmaps but one are lost in this way. -/
theorem Midway.leaks (hcalls : KfsCalls s) (h : Midway s (free + 1)) :
    ∃ s', KfsCalls s' ∧ Midway s' 1 := by
  induction free generalizing s with
  | zero => exact ⟨s, hcalls, h⟩
  | succ free ih => exact ih (.call (c := .write 2 12 zeros) hcalls rfl) h.leak

/-- With one fmap left, the first level of `/f` goes below it, and there is none for the page. -/
theorem Midway.fails (h : Midway s 1) (buf : KfsBuf) : (kfsWrite s 1 28 buf).1 = -1 ∧
    kfsPage s 1 12 = some 0 ∧ kfsPage (kfsWrite s 1 28 buf).2 1 12 = some 1 ∧
    ((kfsWrite s 1 28 buf).2.dentry 1).inode = 1 := by
  obtain ⟨F, t, hF, hnew⟩ := (kfsNewFmap_cases h.low h.top (fun fmap s' =>
    kfsPpage2 ((s'.store (.fmap (16 * fmap)) (s'.inode 1).fmap).setInode 1
      fun e => { e with fmap := u16 fmap }) 1 (28 - 12))).resolve_left
        fun hc => absurd (h.free.symm.trans hc.1) (by decide)
  obtain ⟨s₁, hs₁⟩ : ∃ s₁, s₁ = (({ s with fmapMap := t } : Kfs).store (.fmap (16 * F))
    (s.inode 1).fmap).setInode 1 fun e => { e with fmap := u16 F } := ⟨_, rfl⟩
  have hfmap : (s₁.inode 1).fmap = F := by
    rw [hs₁, Kfs.setInode_inode]
    exact u16_fmap hF.lt
  have hfmaps : s₁.fmaps = Function.update s.fmaps (16 * F) 1 := by
    rw [hs₁, h.fmapF]
    rfl
  have hsize : (s₁.inode 1).size = 12 * 4096 + 8 := by
    rw [hs₁, Kfs.setInode_inode]
    exact h.sizeF
  have hmap : s₁.fmapMap = t := by
    rw [hs₁]
    rfl
  have hcount := hF.free s₁ hmap
  rw [h.free] at hcount
  have hempty : secondMap s₁ 1 ((28 - 12) / 16) = 0 := by
    rw [secondMap, hfmap, hfmaps, Function.update_of_ne (by omega)]
    exact h.clean F 1 (by decide) hF.unused
  have hlast : ∀ rest, kfsNewFmap s₁ rest =
      (none, { s₁ with fmapMap := { s₁.fmapMap with cur := kfsMaxFmap } }) := by
    intro rest
    rcases kfsNewFmap_cases (by rw [hmap]; exact hF.low)
      (by rw [hmap, hF.set, h.top, Bool.or_true]) rest with ⟨-, -, heq⟩ | ⟨F', t', hF', -⟩
    · exact heq
    · have hcount' := hF'.free { s₁ with fmapMap := t' } rfl
      omega
  have hold : (s.inode 1).size / 4096 = 12 := by rw [h.sizeF]
  have hppage : kfsPpage s 1 28 =
      (none, { s₁ with fmapMap := { s₁.fmapMap with cur := kfsMaxFmap } }) := by
    rw [kfsPpage, if_neg (by decide), hold, if_neg (by decide), kfsPpage1, if_neg (by decide),
      if_pos (by decide), hnew]
    show kfsPpage2 ((({ s with fmapMap := t } : Kfs).store (.fmap (16 * F)) (s.inode 1).fmap).setInode 1
      fun e => { e with fmap := u16 F }) 1 (28 - 12) = _
    rw [← hs₁, kfsPpage2_eq, if_pos hempty, hlast]
  have hwrite : kfsWrite s 1 28 buf =
      (-1, { s₁ with fmapMap := { s₁.fmapMap with cur := kfsMaxFmap } }) := by
    rw [kfsWrite, h.inodeF, show u16 28 = 28 from rfl, hppage]
  have hin : ∀ s : Kfs, (s.inode 1).size = 12 * 4096 + 8 → InFile s 1 12 := fun s hs => by
    rw [InFile, hs]
    omega
  have hpage : ∀ s : Kfs, (s.inode 1).size = 12 * 4096 + 8 →
      kfsPage s 1 12 = some (s.fmaps (16 * (s.inode 1).fmap + 0)) := fun s hs => by
    rw [kfsPage_eq, pageCell_first (hin s hs) (Nat.le_refl _) (by rw [hs]; decide)]
    rfl
  rw [hwrite]
  refine ⟨rfl, ?_, ?_, ?_⟩
  · rw [hpage s h.sizeF, h.fmapF]
    exact congrArg some h.hole
  · refine (hpage { s₁ with fmapMap := { s₁.fmapMap with cur := kfsMaxFmap } } hsize).trans ?_
    show some (s₁.fmaps (16 * (s₁.inode 1).fmap + 0)) = some 1
    rw [hfmap, hfmaps]
    exact congrArg some (Function.update_self ..)
  · rw [hs₁]
    exact h.inodeF

theorem fmapsFree_ne_zero {m : Nat} (hm : m < kfsMaxFmap) (h : s.fmapMap.bmp.isSet m = false) :
    fmapsFree s ≠ 0 := by
  intro hzero
  have hle : (bitsSet s.fmapMap.bmp kfsMaxFmap).card ≤ kfsMaxFmap := by
    refine Nat.le_trans (Finset.card_le_card (Finset.filter_subset _ _)) ?_
    rw [Finset.card_range]
  have hcard : (bitsSet s.fmapMap.bmp kfsMaxFmap).card = kfsMaxFmap := by
    unfold fmapsFree at hzero
    omega
  rw [all_set hcard m hm] at h
  exact absurd h (by decide)

/-- A state of such a run from which the fmaps can be lost. -/
theorem exists_midway : ∃ lev s free, MapRun lev s ∧ KfsCalls s ∧ Midway s (free + 1) := by
  have hsizes : ((kfsOp kfsStart (.open_ slashF)).bind fun s => kfsOp s (.open_ slashG)).map
      (fun s => (s.inode (s.dentry 1).inode).size) = some 0 := by decide +kernel
  have hval : (((kfsOp kfsStart (.open_ slashF)).bind fun s => kfsOp s (.open_ slashG)).map
      fun s => kfsSetSize (kfsWrite s 1 12 zeros).2 1 (12 * 4096 + 8)).map
      (fun s => ([(s.dentry 1).inode, (s.dentry 2).inode, (s.inode 1).size, (s.inode 1).fmap,
        (s.inode 2).size, s.fmaps (16 * 1)], s.fmapMap.bmp.isSet 1, s.fmapMap.bmp.isSet 2)) =
      some ([1, 2, 12 * 4096 + 8, 1, 0, 0], true, false) := by decide +kernel
  obtain ⟨s₂, hopens, hsize⟩ := Option.map_eq_some_iff.mp hsizes
  obtain ⟨s₁, hopen₁, hopen₂⟩ := Option.bind_eq_some_iff.mp hopens
  rw [hopens, Option.map_some, Option.map_some, Option.some.injEq] at hval
  simp only [Prod.mk.injEq, List.cons.injEq] at hval
  obtain ⟨⟨hd1, hd2, hsizeF, hfmapF, hsizeG, hhole, -⟩, hset, hclear⟩ := hval
  have hrun₂ := MapRun.call (c := .open_ slashG) (.call (c := .open_ slashF) .start trivial hopen₁)
    trivial hopen₂
  have hok : MapStepOk (fun _ => .none) s₂ (.write 1 12 zeros) := fun _ =>
    ⟨by decide, iff_of_true rfl (by rw [hsize]; decide), fun _ => by simp,
      fun h28 => absurd h28 (by decide), fun h28 => absurd h28 (by decide),
      fun h28 => absurd h28 (by decide)⟩
  have hrun₃ := MapRun.call (c := .setSize 1 (12 * 4096 + 8)) (.call hrun₂ hok rfl)
    ⟨by decide, fun _ => by decide⟩ rfl
  have hcalls : KfsCalls (kfsSetSize (kfsWrite s₂ 1 12 zeros).2 1 (12 * 4096 + 8)) :=
    .call (c := .setSize 1 (12 * 4096 + 8)) (.call (c := .write 1 12 zeros)
      (.call (c := .open_ slashG) (.call (c := .open_ slashF) .start hopen₁) hopen₂) rfl) rfl
  have hinv := hrun₃.inv
  generalize kfsSetSize (kfsWrite s₂ 1 12 zeros).2 1 (12 * 4096 + 8) = s₃ at *
  obtain ⟨free, hfree⟩ := Nat.exists_eq_succ_of_ne_zero (fmapsFree_ne_zero (by decide) hclear)
  exact ⟨_, s₃, free, hrun₃, hcalls, hinv.low, hinv.top, fun m o ho hm => hinv.clean m o ho (.inr hm),
    hd1, hd2, hsizeF, hfmapF, ⟨by decide, hset⟩, hhole, hsizeG, hfree⟩

/-- In such a run a write that fails changes no page, and no fmap is lost. -/
theorem mapRun_fails {lev : Nat → MapLevel} (h : MapRun lev s) : FailsAtomically lev s :=
  h.inv.failsAtomically

/-- `/f` has a page in its first fmap. -/
theorem mapRun_fails_one : ∃ lev s, (s.inode 1).fmap = 1 ∧ FailsAtomically lev s := by
  obtain ⟨lev, s, free, hrun, -, hmid⟩ := exists_midway
  exact ⟨lev, s, hmid.fmapF, mapRun_fails hrun⟩

/-- Page 28 of `/f` is written with one fmap left: the write fails, and page 12, a page of zeros,
is the page 1 of the disk afterwards. -/
theorem kfsWrite_fails_midway : ∃ s, KfsCalls s ∧ (kfsWrite s 1 28 zeros).1 = -1 ∧
    12 * 4096 ≠ (s.inode (s.dentry 1).inode).size ∧
    ∀ b, (kfsRead s 1 12 b).1 = 0 ∧ (kfsRead (kfsWrite s 1 28 zeros).2 1 12 b).1 = 1 := by
  obtain ⟨-, s₀, free, -, hcalls₀, hmid₀⟩ := exists_midway
  obtain ⟨s, hcalls, hmid⟩ := hmid₀.leaks hcalls₀
  obtain ⟨hfail, hbefore, hafter, hinode⟩ := hmid.fails zeros
  refine ⟨s, hcalls, hfail, by rw [hmid.inodeF, hmid.sizeF]; decide, fun b => ⟨?_, ?_⟩⟩
  · rw [kfsRead, hmid.inodeF, hbefore]
    rfl
  · rw [kfsRead, hinode, hafter]
    rfl

end

end Ko6.Fs
