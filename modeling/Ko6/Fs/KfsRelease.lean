import Ko6.Fs.KfsEnd
import Ko6.Fs.KfsCounts

set_option autoImplicit false

/-!
# Fs: what unlink releases

When the count of the inode is 0, `kfs_unlink` frees the pages of the file, in order, and its
fmaps when a flag word says so.  The flag for the first level is set at the page behind the
full ones, which a file of full pages does not have.  The flag for the second level is set
at the end of its first group and stays, so that the next group is freed with its first page
and read again for its second.  `kfsUnlink_releases_iff` says for which files that is right.
-/

namespace Ko6.Fs

open Ko6.Lib Ko6.Common

/-! ## Events -/

/-- What `kfs_unlink` reads of the fmaps, and what it frees. -/
inductive UnlinkEvent where
  | readFmap (m : Nat)
  | freePage (p : Nat)
  | freeFmap (m : Nat)
  | freeInode (i : Nat)
  deriving DecidableEq

/-- The tables after an event. -/
def Kfs.after (s : Kfs) : UnlinkEvent → Kfs
  | .readFmap _ => s
  | .freePage p => kfsFreePage s p
  | .freeFmap m => kfsFreeFmap s m
  | .freeInode i => kfsFreeInode s i

/-- The part of a turn that reads: the fmaps that are read, the page, and `fmap2` and `freemap`
behind it. -/
structure UnlinkTurn where
  reads : List Nat
  page : Nat
  fmap2 : Nat
  freemap : Nat

/-- A turn of the loop of `kfs_unlink`. -/
def unlinkTurn (inode size fmap1 p fmap2 freemap : Nat) (s : Kfs) : UnlinkTurn :=
  if p < 12 then ⟨[], (s.inode inode).page p, fmap2, freemap⟩
  else if size ≤ 28 * 4096 then
    ⟨[fmap1], s.fmaps (16 * fmap1 + (p - 12)), fmap2, if p = size / 4096 then 1 else freemap⟩
  else
    let fmap2 := s.fmaps (16 * fmap1 + (p - 12) / 16)
    let freemap := if (p - 12) % 16 = 15 then 2 else freemap
    ⟨[fmap1, fmap2], s.fmaps (16 * fmap2 + (p - 12) % 16), fmap2,
      if p = size / 4096 then 3 else freemap⟩

/-- The fmaps that a turn frees. -/
def UnlinkTurn.frees (t : UnlinkTurn) (fmap1 : Nat) : List Nat :=
  (if t.freemap % 2 = 1 then [fmap1] else []) ++ if t.freemap / 2 % 2 = 1 then [t.fmap2] else []

def UnlinkTurn.events (t : UnlinkTurn) (fmap1 : Nat) : List UnlinkEvent :=
  t.reads.map .readFmap ++ .freePage t.page :: (t.frees fmap1).map .freeFmap

/-- The events of the loop of `kfs_unlink`. -/
def unlinkEvents (inode size fmap1 : Nat) : Nat → Nat → Nat → Nat → Kfs → List UnlinkEvent
  | 0, _, _, _, _ => []
  | n + 1, p, fmap2, freemap, s =>
    let t := unlinkTurn inode size fmap1 p fmap2 freemap s
    t.events fmap1 ++
      unlinkEvents inode size fmap1 n (p + 1) t.fmap2 t.freemap ((t.events fmap1).foldl Kfs.after s)

/-- The number of pages of a size. -/
def pagesIn (size : Nat) : Nat := (size + 4095) / 4096

/-- The events of `kfs_unlink` of a dentry. -/
def kfsUnlinkEvents (s : Kfs) (dentry : Nat) : List UnlinkEvent :=
  let inode := (s.dentry dentry).inode
  let size := (s.inode inode).size
  let fmap1 := (s.inode inode).fmap
  if (s.inode inode).count = 0 then
    unlinkEvents inode size fmap1 (pagesIn size) 0 0 0 s ++ [.freeInode inode]
  else []

/-- The bit of each bitmap that an event frees. -/
def UnlinkEvent.freedPage : UnlinkEvent → Option Nat
  | .freePage p => some p
  | _ => none

def UnlinkEvent.freedFmap : UnlinkEvent → Option Nat
  | .freeFmap m => some m
  | _ => none

def UnlinkEvent.freedInode : UnlinkEvent → Option Nat
  | .freeInode i => some i
  | _ => none

/-- The pages, the fmaps and the inodes that are freed. -/
def freedPages (evs : List UnlinkEvent) : List Nat := evs.filterMap UnlinkEvent.freedPage

def freedFmaps (evs : List UnlinkEvent) : List Nat := evs.filterMap UnlinkEvent.freedFmap

def freedInodes (evs : List UnlinkEvent) : List Nat := evs.filterMap UnlinkEvent.freedInode

/-- No fmap is read behind the event that frees it. -/
def ReadsNoFreed (evs : List UnlinkEvent) : Prop :=
  evs.Pairwise fun a b => ∀ m, a = .freeFmap m → b ≠ .readFmap m

/-- `p` is a page of the file on the disk. -/
def HasPage (s : Kfs) (i p : Nat) : Prop := p ≠ 0 ∧ ∃ k, InFile s i k ∧ kfsPage s i k = some p

/-- `kfs_unlink` of the name of a dentry clears the bits of the pages, the fmaps and the inode
of its file and no others, each once, and reads no fmap that it has freed. -/
structure ReleasesExactly (s : Kfs) (path : CStr) (d i : Nat) : Prop where
  result : ∃ s', kfsUnlink s path = some s' ∧
    (∀ p, s'.pageMap.bmp.isSet p = true ↔ s.pageMap.bmp.isSet p = true ∧ ¬ HasPage s i p) ∧
    (∀ m, s'.fmapMap.bmp.isSet m = true ↔ s.fmapMap.bmp.isSet m = true ∧ ¬ UsesMap s i m) ∧
    ∀ j, s'.inodeMap.bmp.isSet j = true ↔ s.inodeMap.bmp.isSet j = true ∧ j ≠ i
  pagesOnce : (freedPages (kfsUnlinkEvents s d)).Nodup
  pages : ∀ p, p ∈ freedPages (kfsUnlinkEvents s d) ↔ HasPage s i p
  fmapsOnce : (freedFmaps (kfsUnlinkEvents s d)).Nodup
  fmaps : ∀ m, m ∈ freedFmaps (kfsUnlinkEvents s d) ↔ UsesMap s i m
  fmapsNe : ∀ m ∈ freedFmaps (kfsUnlinkEvents s d), m ≠ 0
  inodes : freedInodes (kfsUnlinkEvents s d) = [i]
  reads : ReadsNoFreed (kfsUnlinkEvents s d)

section
variable {s s' : Kfs} {i d k n p m : Nat}

theorem foldl_readFmap (l : List Nat) (s : Kfs) :
    (l.map UnlinkEvent.readFmap).foldl Kfs.after s = s := by
  induction l with
  | nil => rfl
  | cons m l ih => exact ih

/-- The tables after some fmaps are freed. -/
theorem foldl_freeFmap (l : List Nat) (s : Kfs) :
    ((l.map UnlinkEvent.freeFmap).foldl Kfs.after s).inode = s.inode ∧
      ∀ x, ((l.map UnlinkEvent.freeFmap).foldl Kfs.after s).fmaps x =
        if x / 16 ∈ l then 0 else s.fmaps x := by
  induction l generalizing s with
  | nil => exact ⟨rfl, fun x => (if_neg List.not_mem_nil).symm⟩
  | cons m l ih =>
    obtain ⟨hinode, hfmaps⟩ := ih (kfsFreeFmap s m)
    refine ⟨hinode, fun x => (hfmaps x).trans ?_⟩
    have hm : (kfsFreeFmap s m).fmaps x = if x / 16 = m then 0 else s.fmaps x := rfl
    rw [hm]
    by_cases hx : x / 16 = m
    · rw [if_pos hx, ite_self, if_pos (List.mem_cons.mpr (.inl hx))]
    · have hcons : x / 16 ∈ m :: l ↔ x / 16 ∈ l := by rw [List.mem_cons, or_iff_right hx]
      rw [if_neg hx, if_congr hcons rfl rfl]

/-- Without a flag only the page is freed. -/
theorem UnlinkTurn.events_quiet {t : UnlinkTurn} (h : t.freemap = 0) (fmap1 : Nat) :
    t.events fmap1 = t.reads.map .readFmap ++ [.freePage t.page] := by
  rw [UnlinkTurn.events, UnlinkTurn.frees, h]
  simp

/-- The tables after a turn. -/
theorem UnlinkTurn.foldl_events (t : UnlinkTurn) (fmap1 : Nat) (s : Kfs) :
    (t.events fmap1).foldl Kfs.after s =
      ((t.frees fmap1).map UnlinkEvent.freeFmap).foldl Kfs.after (kfsFreePage s t.page) := by
  rw [UnlinkTurn.events, List.foldl_append, foldl_readFmap, List.foldl_cons]
  rfl

/-- The loop does what the events say. -/
theorem kfsUnlinkPages_events (inode size fmap1 n p fmap2 freemap : Nat) (s : Kfs) :
    kfsUnlinkPages inode size fmap1 n p fmap2 freemap s
      = (unlinkEvents inode size fmap1 n p fmap2 freemap s).foldl Kfs.after s := by
  induction n generalizing p fmap2 freemap s with
  | zero => rfl
  | succ n ih =>
    have hfrees : ∀ (t : UnlinkTurn), ((t.frees fmap1).map UnlinkEvent.freeFmap).foldl Kfs.after
        (kfsFreePage s t.page) =
          (let s := kfsFreePage s t.page
           let s := if t.freemap % 2 = 1 then kfsFreeFmap s fmap1 else s
           if t.freemap / 2 % 2 = 1 then kfsFreeFmap s t.fmap2 else s) := by
      intro t
      rw [UnlinkTurn.frees]
      simp only
      split <;> split <;> rfl
    rw [unlinkEvents, kfsUnlinkPages]
    simp only
    rw [List.foldl_append, ← ih, UnlinkTurn.foldl_events, hfrees]
    unfold unlinkTurn
    split
    · rfl
    · split <;> rfl

end

/-! ## Turns -/

/-- The fmaps that are read for a page. -/
def mapsRead (s : Kfs) (i k : Nat) : List Nat :=
  if k < 12 then []
  else if (s.inode i).size ≤ 28 * 4096 then [(s.inode i).fmap]
  else [(s.inode i).fmap, secondMap s i ((k - 12) / 16)]

/-- A turn that frees a page and no fmap. -/
def pageEvents (s : Kfs) (i k : Nat) : List UnlinkEvent :=
  (mapsRead s i k).map .readFmap ++ [.freePage ((kfsPage s i k).getD 0)]

/-- `freemap` behind the page `k`. -/
def nextFlag (size k freemap : Nat) : Nat :=
  if k < 12 then freemap
  else if size ≤ 28 * 4096 then if k = size / 4096 then 1 else freemap
  else if k = size / 4096 then 3 else if (k - 12) % 16 = 15 then 2 else freemap

/-- The cells of the pages are the same. -/
def SameMaps (s t : Kfs) : Prop :=
  (∀ j, (t.inode j).page = (s.inode j).page) ∧ t.fmaps = s.fmaps

section
variable {s t : Kfs} {i k n m p f2 freemap : Nat}

theorem SameMaps.refl (s : Kfs) : SameMaps s s := ⟨fun _ => rfl, rfl⟩

theorem unlinkTurn_congr {inode size fmap1 : Nat} (h : SameMaps s t) :
    unlinkTurn inode size fmap1 p f2 freemap t = unlinkTurn inode size fmap1 p f2 freemap s := by
  unfold unlinkTurn
  rw [h.1 inode, h.2]

/-- A turn for a page of the file. -/
theorem unlinkTurn_eq (hk : InFile s i k) :
    unlinkTurn i (s.inode i).size (s.inode i).fmap k f2 freemap s =
      ⟨mapsRead s i k, (kfsPage s i k).getD 0,
        if k < 12 ∨ (s.inode i).size ≤ 28 * 4096 then f2 else secondMap s i ((k - 12) / 16),
        nextFlag (s.inode i).size k freemap⟩ := by
  unfold InFile at hk
  rw [unlinkTurn, mapsRead, nextFlag, kfsPage]
  simp only
  rw [if_neg (show ¬ ((s.inode i).size = 0 ∨ k > (s.inode i).size / 4096) by omega)]
  by_cases h12 : k < 12
  · simp only [h12, true_or, if_true, Option.getD_some]
  · by_cases hsize : (s.inode i).size ≤ 28 * 4096
    · simp only [h12, hsize, or_true, if_true, if_false, Option.getD_some]
    · simp only [h12, hsize, or_self, if_false, Option.getD_some, secondMap]

/-- Turns that leave `freemap` zero. -/
theorem unlinkEvents_quiet (f2 m : Nat) (hsame : SameMaps s t)
    (hquiet : ∀ k, p ≤ k → k < p + m → InFile s i k ∧ nextFlag (s.inode i).size k 0 = 0) :
    ∃ f2' t', SameMaps s t' ∧
      unlinkEvents i (s.inode i).size (s.inode i).fmap (m + n) p f2 0 t =
        (List.range' p m).flatMap (pageEvents s i) ++
          unlinkEvents i (s.inode i).size (s.inode i).fmap n (p + m) f2' 0 t' := by
  induction m generalizing p f2 t with
  | zero => exact ⟨f2, t, hsame, by rw [Nat.zero_add]; rfl⟩
  | succ m ih =>
    obtain ⟨hk, hflag⟩ := hquiet p (Nat.le_refl p) (by omega)
    have hevents : (unlinkTurn i (s.inode i).size (s.inode i).fmap p f2 0 t).events
        (s.inode i).fmap = pageEvents s i p := by
      rw [unlinkTurn_congr hsame, unlinkTurn_eq hk, UnlinkTurn.events_quiet hflag]
      rfl
    have hflag' : (unlinkTurn i (s.inode i).size (s.inode i).fmap p f2 0 t).freemap = 0 := by
      rw [unlinkTurn_congr hsame, unlinkTurn_eq hk, hflag]
    have hafter : SameMaps s ((pageEvents s i p).foldl Kfs.after t) := by
      rw [pageEvents, List.foldl_append, foldl_readFmap]
      exact hsame
    obtain ⟨f2', t', hsame', heq⟩ := ih (p := p + 1) (unlinkTurn i (s.inode i).size
      (s.inode i).fmap p f2 0 t).fmap2 hafter fun k hpk hkm => hquiet k (by omega) (by omega)
    refine ⟨f2', t', hsame', ?_⟩
    rw [show m + 1 + n = m + n + 1 by omega, unlinkEvents, hevents, hflag', heq,
      List.range'_succ, List.flatMap_cons, List.append_assoc,
      show p + 1 + m = p + (m + 1) by omega]

end

/-! ## Files -/

/-- The maps of the file are well formed, not the fmap 0, and list a page once. -/
structure OwnMaps (s : Kfs) (i : Nat) : Prop extends MapsOk s i where
  firstNe : InFile s i 12 → (s.inode i).fmap ≠ 0
  pagesOnce : ∀ k k' p, InFile s i k → InFile s i k' → kfsPage s i k = some p →
    kfsPage s i k' = some p → p ≠ 0 → k = k'

/-- No page of the file is a page of zeros that is not on the disk. -/
def NoHoles (s : Kfs) (i : Nat) : Prop := ∀ k, InFile s i k → kfsPage s i k ≠ some 0

/-- The fmaps that are freed with the page `k` of a file of at most 29 pages. -/
def freesAt (s : Kfs) (i k : Nat) : List Nat :=
  if (s.inode i).size ≤ 28 * 4096 then
    if 12 ≤ k ∧ k = (s.inode i).size / 4096 then [(s.inode i).fmap] else []
  else if k = 27 then [secondMap s i 0]
  else if k = 28 then
    (if (s.inode i).size / 4096 = 28 then [(s.inode i).fmap] else []) ++ [secondMap s i 1]
  else []

/-- The events for a page. -/
def eventsAt (s : Kfs) (i k : Nat) : List UnlinkEvent :=
  pageEvents s i k ++ (freesAt s i k).map .freeFmap

section
variable {s t : Kfs} {i k n m p f2 freemap : Nat}

theorem pagesIn_le (hk : k < pagesIn (s.inode i).size) : InFile s i k := by
  unfold pagesIn at hk
  unfold InFile
  omega

theorem eventsAt_quiet (h : freesAt s i k = []) : eventsAt s i k = pageEvents s i k := by
  rw [eventsAt, h]
  exact List.append_nil _

/-- A turn with the frees of its page. -/
theorem unlinkTurn_events (hk : InFile s i k)
    (hturn : unlinkTurn i (s.inode i).size (s.inode i).fmap k f2 freemap t =
      unlinkTurn i (s.inode i).size (s.inode i).fmap k f2 freemap s)
    (hfrees : (unlinkTurn i (s.inode i).size (s.inode i).fmap k f2 freemap s).frees
      (s.inode i).fmap = freesAt s i k) :
    (unlinkTurn i (s.inode i).size (s.inode i).fmap k f2 freemap t).events (s.inode i).fmap
      = eventsAt s i k := by
  rw [hturn, UnlinkTurn.events, hfrees, unlinkTurn_eq hk, eventsAt, pageEvents, List.append_assoc]
  rfl

/-- The fmaps that are not freed with a page stay. -/
theorem foldl_eventsAt {x : Nat} (h : x / 16 ∉ freesAt s i k) :
    ((eventsAt s i k).foldl Kfs.after t).fmaps x = t.fmaps x := by
  rw [eventsAt, List.foldl_append, (foldl_freeFmap _ _).2, if_neg h, pageEvents, List.foldl_append,
    foldl_readFmap]
  rfl

/-- The flag of the first level. -/
theorem nextFlag_one (hsize : (s.inode i).size ≤ 28 * 4096) :
    nextFlag (s.inode i).size k 0 = if 12 ≤ k ∧ k = (s.inode i).size / 4096 then 1 else 0 := by
  rw [nextFlag, if_pos hsize]
  by_cases h12 : k < 12
  · rw [if_pos h12, if_neg (by omega)]
  · have h12' : 12 ≤ k := Nat.le_of_not_lt h12
    simp only [h12, h12', true_and, if_false]

/-- Up to 28 pages. -/
theorem unlinkEvents_one (hsize : (s.inode i).size ≤ 28 * 4096) :
    unlinkEvents i (s.inode i).size (s.inode i).fmap (pagesIn (s.inode i).size) 0 0 0 s =
      (List.range (pagesIn (s.inode i).size)).flatMap (eventsAt s i) := by
  have hquiet : ∀ k, k < pagesIn (s.inode i).size → ¬ (12 ≤ k ∧ k = (s.inode i).size / 4096) →
      (InFile s i k ∧ nextFlag (s.inode i).size k 0 = 0) ∧ eventsAt s i k = pageEvents s i k := by
    intro k hk hno
    refine ⟨⟨pagesIn_le hk, by rw [nextFlag_one hsize, if_neg hno]⟩, eventsAt_quiet ?_⟩
    rw [freesAt, if_pos hsize, if_neg hno]
  rw [List.range_eq_range']
  by_cases hlast : 12 ≤ (s.inode i).size / 4096 ∧
      (s.inode i).size / 4096 < pagesIn (s.inode i).size
  · -- the last page is not full, and the first level is freed with it
    obtain ⟨h12, hlt⟩ := hlast
    have hn : pagesIn (s.inode i).size = (s.inode i).size / 4096 + 1 := by
      unfold pagesIn at hlt ⊢
      omega
    generalize hq : (s.inode i).size / 4096 = q at *
    obtain ⟨f2', t', hsame, heq⟩ := unlinkEvents_quiet (s := s) (t := s) (i := i) (p := 0) (n := 1)
      0 q (.refl s) fun k _ hk => (hquiet k (by omega) (by omega)).1
    have hturn : (unlinkTurn i (s.inode i).size (s.inode i).fmap q f2' 0 t').events
        (s.inode i).fmap = eventsAt s i q := by
      have hflag : nextFlag (s.inode i).size q 0 = 1 := by
        rw [nextFlag_one hsize, if_pos ⟨h12, hq.symm⟩]
      have hfrees : freesAt s i q = [(s.inode i).fmap] := by
        rw [freesAt, if_pos hsize, if_pos ⟨h12, hq.symm⟩]
      refine unlinkTurn_events (pagesIn_le hlt) (unlinkTurn_congr hsame) ?_
      rw [unlinkTurn_eq (pagesIn_le hlt), UnlinkTurn.frees, hflag, hfrees]
      simp
    rw [hn, heq, Nat.zero_add, unlinkEvents, unlinkEvents, hturn, List.append_nil,
      List.range'_1_concat, List.flatMap_append, List.flatMap_singleton, Nat.zero_add]
    congr 1
    refine List.flatMap_congr fun k hk => ?_
    have hkq := (List.mem_range'_1.mp hk).2
    exact ((hquiet k (by omega) (by omega)).2).symm
  · have hno : ∀ k, k < pagesIn (s.inode i).size → ¬ (12 ≤ k ∧ k = (s.inode i).size / 4096) :=
      fun k hk hc => hlast ⟨hc.2 ▸ hc.1, hc.2 ▸ hk⟩
    obtain ⟨f2', t', -, heq⟩ := unlinkEvents_quiet (s := s) (t := s) (i := i) (p := 0) (n := 0)
      0 (pagesIn (s.inode i).size) (.refl s) fun k _ hk =>
        (hquiet k (by omega) (hno k (by omega))).1
    rw [Nat.add_zero] at heq
    rw [heq, unlinkEvents, List.append_nil]
    refine List.flatMap_congr fun k hk => ?_
    have hkn := (List.mem_range'_1.mp hk).2
    exact ((hquiet k (by omega) (hno k (by omega))).2).symm

/-- A turn at the second level where the entries of the page are left. -/
theorem unlinkTurn_left (hsize : 28 * 4096 < (s.inode i).size) (h12 : 12 ≤ k)
    (hfirst : t.fmaps (16 * (s.inode i).fmap + (k - 12) / 16) = secondMap s i ((k - 12) / 16))
    (hsecond : t.fmaps (16 * secondMap s i ((k - 12) / 16) + (k - 12) % 16) =
      s.fmaps (16 * secondMap s i ((k - 12) / 16) + (k - 12) % 16)) :
    unlinkTurn i (s.inode i).size (s.inode i).fmap k f2 freemap t =
      unlinkTurn i (s.inode i).size (s.inode i).fmap k f2 freemap s := by
  have h12' : ¬ k < 12 := Nat.not_lt.mpr h12
  have hsize' : ¬ (s.inode i).size ≤ 28 * 4096 := Nat.not_le.mpr hsize
  have hmap : s.fmaps (16 * (s.inode i).fmap + (k - 12) / 16) = secondMap s i ((k - 12) / 16) := rfl
  unfold unlinkTurn
  simp only [h12', hsize', if_false, hfirst, hsecond, hmap]

/-- The first 29 pages of more than 28. -/
theorem unlinkEvents_two (hmaps : MapsOk s i) (hsize : 28 * 4096 < (s.inode i).size)
    (hn : pagesIn (s.inode i).size = 29 + m) : ∃ f2' freemap' t,
      unlinkEvents i (s.inode i).size (s.inode i).fmap (pagesIn (s.inode i).size) 0 0 0 s =
        (List.range 29).flatMap (eventsAt s i) ++
          unlinkEvents i (s.inode i).size (s.inode i).fmap m 29 f2' freemap' t ∧
      (m ≠ 0 → t.fmaps (16 * (s.inode i).fmap + 1) = secondMap s i 1) := by
  have hsize' : ¬ (s.inode i).size ≤ 28 * 4096 := Nat.not_le.mpr hsize
  have hq : 28 ≤ (s.inode i).size / 4096 := by omega
  have hin : ∀ k, k < 29 → InFile s i k := fun k hk => pagesIn_le (by omega)
  obtain ⟨-, -, hfirst₀⟩ := hmaps.second hsize 0 (hin 12 (by omega))
  obtain ⟨-, -, hfirst₁⟩ := hmaps.second hsize 1 (hin 28 (by omega))
  have hapart : secondMap s i 1 ≠ secondMap s i 0 := fun heq =>
    absurd (hmaps.once hsize 1 0 (hin 28 (by omega)) (hin 12 (by omega)) heq) (by omega)
  have hquiet : ∀ k, k < 27 →
      nextFlag (s.inode i).size k 0 = 0 ∧ eventsAt s i k = pageEvents s i k := by
    intro k hk
    refine ⟨?_, eventsAt_quiet ?_⟩
    · rw [nextFlag, if_neg hsize', if_neg (by omega : ¬ k = (s.inode i).size / 4096),
        if_neg (by omega : ¬ (k - 12) % 16 = 15), ite_self]
    · rw [freesAt, if_neg hsize', if_neg (by omega), if_neg (by omega)]
  obtain ⟨f2₁, t₀, hsame, hquiets⟩ := unlinkEvents_quiet (s := s) (t := s) (i := i) (p := 0)
    (n := m + 2) 0 27 (.refl s) fun k _ hk => ⟨hin k (by omega), (hquiet k (by omega)).1⟩
  -- the page 27 ends the first group, which is freed with it
  have hflag₁ : nextFlag (s.inode i).size 27 0 = 2 := by
    rw [nextFlag, if_neg (by omega), if_neg hsize', if_neg (by omega), if_pos (by omega)]
  have hat₁ : freesAt s i 27 = [secondMap s i 0] := by
    rw [freesAt, if_neg hsize', if_pos rfl]
  have hturn₁ : unlinkTurn i (s.inode i).size (s.inode i).fmap 27 f2₁ 0 t₀ =
      unlinkTurn i (s.inode i).size (s.inode i).fmap 27 f2₁ 0 s := unlinkTurn_congr hsame
  have hevents₁ := unlinkTurn_events (hin 27 (by omega)) hturn₁ (by
    rw [unlinkTurn_eq (hin 27 (by omega)), UnlinkTurn.frees, hflag₁, hat₁]
    simp [hsize'])
  have hfmaps₁ : ∀ x, x / 16 ≠ secondMap s i 0 →
      ((eventsAt s i 27).foldl Kfs.after t₀).fmaps x = s.fmaps x := by
    intro x hx
    rw [foldl_eventsAt (by rwa [hat₁, List.mem_singleton]), hsame.2]
  -- the page 28 is the first of the second group, which is freed with it too
  have hflag₂ : nextFlag (s.inode i).size 28 2 = if (s.inode i).size / 4096 = 28 then 3 else 2 := by
    rw [nextFlag, if_neg (by omega), if_neg hsize', if_neg (by omega : ¬ (28 - 12) % 16 = 15),
      if_congr eq_comm rfl rfl]
  have hat₂ : freesAt s i 28 = (if (s.inode i).size / 4096 = 28 then [(s.inode i).fmap] else []) ++
      [secondMap s i 1] := by
    rw [freesAt, if_neg hsize', if_neg (by omega), if_pos rfl]
  have hrows : (16 * (s.inode i).fmap + 1) / 16 = (s.inode i).fmap ∧
      (16 * secondMap s i 1 + 0) / 16 = secondMap s i 1 := by omega
  have hturn₂ : unlinkTurn i (s.inode i).size (s.inode i).fmap 28 (secondMap s i 0) 2
        ((eventsAt s i 27).foldl Kfs.after t₀) =
      unlinkTurn i (s.inode i).size (s.inode i).fmap 28 (secondMap s i 0) 2 s :=
    unlinkTurn_left hsize (by omega) (hfmaps₁ _ (by rw [hrows.1]; exact hfirst₀.symm))
      (hfmaps₁ _ (by rw [hrows.2]; exact hapart))
  have hevents₂ := unlinkTurn_events (hin 28 (by omega)) hturn₂ (by
    rw [unlinkTurn_eq (hin 28 (by omega)), UnlinkTurn.frees, hflag₂, hat₂]
    by_cases hend : (s.inode i).size / 4096 = 28 <;> simp [hsize', hend])
  let turn₂ := unlinkTurn i (s.inode i).size (s.inode i).fmap 28 (secondMap s i 0) 2
    ((eventsAt s i 27).foldl Kfs.after t₀)
  refine ⟨turn₂.fmap2, turn₂.freemap,
    (eventsAt s i 28).foldl Kfs.after ((eventsAt s i 27).foldl Kfs.after t₀), ?_, fun hm => ?_⟩
  · have hstart : (List.range' 0 27).flatMap (pageEvents s i)
        = (List.range 27).flatMap (eventsAt s i) := by
      rw [← List.range_eq_range']
      exact List.flatMap_congr fun k hk => ((hquiet k (List.mem_range.mp hk)).2).symm
    have hf2 : (unlinkTurn i (s.inode i).size (s.inode i).fmap 27 f2₁ 0 t₀).fmap2
        = secondMap s i 0 := by
      rw [hturn₁, unlinkTurn_eq (hin 27 (by omega))]
      simp [hsize']
    have hflag : (unlinkTurn i (s.inode i).size (s.inode i).fmap 27 f2₁ 0 t₀).freemap = 2 := by
      rw [hturn₁, unlinkTurn_eq (hin 27 (by omega)), hflag₁]
    have hend : (List.range 29).flatMap (eventsAt s i) =
        (List.range 27).flatMap (eventsAt s i) ++ (eventsAt s i 27 ++ eventsAt s i 28) := by
      rw [List.range_succ (n := 28), List.range_succ (n := 27), List.flatMap_append,
        List.flatMap_append, List.flatMap_singleton, List.flatMap_singleton, List.append_assoc]
    rw [hn, show 29 + m = 27 + (m + 2) by omega, hquiets, Nat.zero_add, hstart, unlinkEvents,
      hevents₁, hf2, hflag, unlinkEvents, hevents₂, hend, List.append_assoc, List.append_assoc]
  · have hne : (s.inode i).size / 4096 ≠ 28 := by
      unfold pagesIn at hn
      omega
    rw [foldl_eventsAt, hfmaps₁ _ (by rw [hrows.1]; exact hfirst₀.symm)]
    · rfl
    · rw [hat₂, if_neg hne, List.nil_append, List.mem_singleton, hrows.1]
      exact hfirst₁.symm

/-- Up to 29 pages. -/
theorem unlinkEvents_short (hmaps : MapsOk s i) (hsize : (s.inode i).size ≤ 29 * 4096) :
    unlinkEvents i (s.inode i).size (s.inode i).fmap (pagesIn (s.inode i).size) 0 0 0 s =
      (List.range (pagesIn (s.inode i).size)).flatMap (eventsAt s i) := by
  by_cases hone : (s.inode i).size ≤ 28 * 4096
  · exact unlinkEvents_one hone
  · have hn : pagesIn (s.inode i).size = 29 + 0 := by
      unfold pagesIn
      omega
    obtain ⟨f2', freemap', t, heq, -⟩ := unlinkEvents_two hmaps (Nat.not_le.mp hone) hn
    rw [heq, hn, unlinkEvents, List.append_nil]

end

/-! ## What is freed -/

section
variable {s t : Kfs} {i j k n m p : Nat} {evs : List UnlinkEvent}

/-- The bits of a bitmap after some events that each free at most one of them. -/
theorem foldl_isSet (view : Kfs → KfsBitmap) (freed : UnlinkEvent → Option Nat)
    (hstep : ∀ s e, view (Kfs.after s e) = ((freed e).map (kfsFreeBitmap (view s))).getD (view s)) :
    (view (evs.foldl Kfs.after s)).bmp.isSet n = true ↔
      (view s).bmp.isSet n = true ∧ n ∉ evs.filterMap freed := by
  induction evs generalizing s with
  | nil => exact ⟨fun h => ⟨h, List.not_mem_nil⟩, And.left⟩
  | cons e evs ih =>
    rw [List.foldl_cons, ih, hstep]
    cases he : freed e with
    | none => rw [List.filterMap_cons_none he, Option.map_none, Option.getD_none]
    | some b =>
      have hclear : (kfsFreeBitmap (view s) b).bmp.isSet n =
          (!decide (n = b) && (view s).bmp.isSet n) := Bitmap.isSet_clear ..
      rw [List.filterMap_cons_some he, Option.map_some, Option.getD_some, hclear, List.mem_cons]
      simp only [Bool.and_eq_true, Bool.not_eq_true', decide_eq_false_iff_not, not_or]
      exact ⟨fun ⟨⟨hne, hset⟩, hnot⟩ => ⟨hset, hne, hnot⟩, fun ⟨hset, hne, hnot⟩ => ⟨⟨hne, hset⟩, hnot⟩⟩

/-- The bitmaps of the inodes, the fmaps and the pages are the same. -/
def SameBits (s t : Kfs) : Prop :=
  t.pageMap = s.pageMap ∧ t.fmapMap = s.fmapMap ∧ t.inodeMap = s.inodeMap

theorem foldl_sameBits (evs : List UnlinkEvent) (h : SameBits s t) :
    SameBits (evs.foldl Kfs.after s) (evs.foldl Kfs.after t) := by
  induction evs generalizing s t with
  | nil => exact h
  | cons e evs ih =>
    obtain ⟨hpage, hfmap, hinode⟩ := h
    refine ih ?_
    cases e with
    | readFmap m => exact ⟨hpage, hfmap, hinode⟩
    | freePage p => exact ⟨congrArg (kfsFreeBitmap · p) hpage, hfmap, hinode⟩
    | freeFmap m => exact ⟨hpage, congrArg (kfsFreeBitmap · m) hfmap, hinode⟩
    | freeInode i => exact ⟨hpage, hfmap, congrArg (kfsFreeBitmap · i) hinode⟩

theorem foldl_sameMaps (evs : List UnlinkEvent) (h : SameMaps s t) :
    SameMaps (evs.foldl Kfs.after s) (evs.foldl Kfs.after t) := by
  induction evs generalizing s t with
  | nil => exact h
  | cons e evs ih =>
    refine ih ?_
    cases e with
    | readFmap m => exact h
    | freePage p => exact h
    | freeFmap m =>
      refine ⟨h.1, funext fun x => ?_⟩
      show (if x / 16 = m then 0 else t.fmaps x) = if x / 16 = m then 0 else s.fmaps x
      rw [h.2]
    | freeInode i =>
      have hat : ∀ u : Kfs, (u.after (.freeInode i)).inode =
        Function.update u.inode i ⟨.dir, 0, 0, 0, 0, 0, fun _ => 0, 0⟩ := fun _ => rfl
      refine ⟨fun j => ?_, h.2⟩
      rw [hat, hat]
      by_cases hj : j = i
      · rw [hj, Function.update_self, Function.update_self]
      · rw [Function.update_of_ne hj, Function.update_of_ne hj, h.1]

theorem unlinkEvents_congr {inode size fmap1 f2 freemap : Nat} (h : SameMaps s t) :
    unlinkEvents inode size fmap1 n p f2 freemap t = unlinkEvents inode size fmap1 n p f2 freemap s := by
  induction n generalizing p f2 freemap s t with
  | zero => rfl
  | succ n ih =>
    rw [unlinkEvents, unlinkEvents, unlinkTurn_congr h, ih (foldl_sameMaps _ h)]

/-- What `kfs_free_dentry` keeps. -/
theorem kfsFreeDentry_keeps {d : Nat} (h : kfsFreeDentry s d = some t) :
    t.inode = s.inode ∧ SameFiles s t ∧ SameBits s t := by
  rw [kfsFreeDentry] at h
  obtain ⟨prev, -, h⟩ := Option.bind_eq_some_iff.mp h
  rw [← Option.some.inj h]
  by_cases hprev : prev = 0
  · simp only [hprev, if_true]
    exact ⟨rfl, ⟨rfl, rfl, rfl, fun _ => rfl, fun _ => rfl, fun _ => rfl⟩, rfl, rfl, rfl⟩
  · simp only [hprev, if_false]
    exact ⟨rfl, ⟨rfl, rfl, rfl, fun _ => rfl, fun _ => rfl, fun _ => rfl⟩, rfl, rfl, rfl⟩

/-- `kfs_unlink` of a name leaves the bitmaps that its events leave. -/
theorem kfsUnlink_events {path : CStr} {d : Nat} (h : NameInv s) (habs : path.byte 0 = slash)
    (hshort : ShortNames 27 path) (hd : NamesTo s d (pathNames path)) (hd0 : d ≠ 0) :
    ∃ s', kfsUnlink s path = some s' ∧ SameBits ((kfsUnlinkEvents s d).foldl Kfs.after s) s' := by
  obtain ⟨s₁, hopen, hagain⟩ := h.open_found habs hshort hd
  have hfiles : SameFiles s s₁ := kfsDo_files (c := .open_ path) trivial (by rw [kfsDo, hopen]; rfl)
  have hinv := hagain.toSameAlloc.links.nameInv h
  have hin := hagain.toSameAlloc.links.inTree_iff.mpr hd.inTree
  obtain ⟨hroot, hlisted⟩ := hinv.listed_root hin hd0
  obtain ⟨l, hl⟩ := hinv.lists _ hroot
  obtain ⟨s₂, hfree, -⟩ := kfsFreeDentry_cut hinv.low hl (hl.listed_iff.mp hlisted)
  obtain ⟨hinode, hsame₂, hpage, hfmap, hbits⟩ := kfsFreeDentry_keeps hfree
  have hi : (s₁.dentry d).inode = (s.dentry d).inode := by rw [hagain.dentry]
  rw [kfsUnlink, hopen]
  simp only [Option.bind_eq_bind, Option.bind_some, hfree, hi, hinode, hagain.count, hfiles.size,
    hfiles.fmap]
  have hsame : ∀ g : KfsInode → KfsInode, (∀ e, (g e).page = e.page) →
      SameMaps s (s₂.setInode (s.dentry d).inode g) ∧ SameBits s (s₂.setInode (s.dentry d).inode g) := by
    intro g hg
    refine ⟨⟨fun j => ?_, hsame₂.fmaps.trans hfiles.fmaps⟩, hpage.trans hagain.pageMap,
      hfmap.trans hagain.fmapMap, hbits.trans hagain.inodeMap⟩
    rw [Kfs.setInode_field KfsInode.page hg, hinode, hfiles.page]
  obtain ⟨hmaps, hbits'⟩ := hsame (fun e => { e with count := e.count - 1 }) fun _ => rfl
  rw [kfsUnlinkEvents]
  by_cases hcount : (s.inode (s.dentry d).inode).count = 0
  · simp only [hcount, if_true]
    refine ⟨_, rfl, ?_⟩
    rw [kfsUnlinkPages_events, ← pagesIn, unlinkEvents_congr hmaps, List.foldl_append]
    exact foldl_sameBits [.freeInode (s.dentry d).inode] (foldl_sameBits _ hbits')
  · simp only [hcount, if_false]
    exact ⟨_, rfl, hbits'⟩

end

/-! ## The files that are released -/

section
variable {s t : Kfs} {i j k k' n m p d : Nat} {path : CStr}

theorem mem_freesAt : m ∈ freesAt s i k ↔
    (s.inode i).size ≤ 28 * 4096 ∧ 12 ≤ k ∧ k = (s.inode i).size / 4096 ∧ m = (s.inode i).fmap ∨
    28 * 4096 < (s.inode i).size ∧ (k = 27 ∧ m = secondMap s i 0 ∨
      k = 28 ∧ ((s.inode i).size / 4096 = 28 ∧ m = (s.inode i).fmap ∨ m = secondMap s i 1)) := by
  rw [freesAt]
  by_cases hone : (s.inode i).size ≤ 28 * 4096
  · have hnot : ¬ 28 * 4096 < (s.inode i).size := Nat.not_lt.mpr hone
    simp only [hone, hnot, if_true, true_and, false_and, or_false]
    by_cases hk : 12 ≤ k ∧ k = (s.inode i).size / 4096
    · rw [if_pos hk, List.mem_singleton, ← and_assoc, and_iff_right hk]
    · rw [if_neg hk, ← and_assoc]
      exact ⟨fun hm => absurd hm List.not_mem_nil, fun hm => absurd hm.1 hk⟩
  · have hlt : 28 * 4096 < (s.inode i).size := Nat.not_le.mp hone
    simp only [hone, hlt, if_false, true_and, false_and, false_or]
    by_cases hk : k = 27
    · simp [hk]
    · by_cases hk' : k = 28
      · by_cases hend : (s.inode i).size / 4096 = 28 <;> simp [hk', hend]
      · simp [hk, hk']

/-- The fmaps of a file of at most 29 pages. -/
theorem usesMap_iff (hsize : (s.inode i).size ≤ 29 * 4096) : UsesMap s i m ↔
    12 * 4096 < (s.inode i).size ∧ m = (s.inode i).fmap ∨
      28 * 4096 < (s.inode i).size ∧ (m = secondMap s i 0 ∨ m = secondMap s i 1) := by
  unfold UsesMap InFile
  refine or_congr Iff.rfl (and_congr_right fun hlt => ⟨?_, ?_⟩)
  · rintro ⟨j, hj, rfl⟩
    obtain rfl | rfl : j = 0 ∨ j = 1 := by omega
    · exact .inl rfl
    · exact .inr rfl
  · rintro (rfl | rfl)
    · exact ⟨0, by omega, rfl⟩
    · exact ⟨1, by omega, rfl⟩

/-- What the turn for a page frees. -/
theorem eventsAt_freed (s : Kfs) (i k : Nat) :
    (eventsAt s i k).filterMap UnlinkEvent.freedPage = [(kfsPage s i k).getD 0] ∧
      (eventsAt s i k).filterMap UnlinkEvent.freedFmap = freesAt s i k ∧
      (eventsAt s i k).filterMap UnlinkEvent.freedInode = [] := by
  have hmap : ∀ {f : UnlinkEvent → Option Nat} {c : Nat → UnlinkEvent} (l : List Nat),
      (l.map c).filterMap f = l.filterMap (f ∘ c) := fun l => List.filterMap_map
  have hnone : ∀ l : List Nat, l.filterMap (fun _ => (none : Option Nat)) = [] := fun l =>
    List.filterMap_eq_nil_iff.mpr fun _ _ => rfl
  have hreads : ∀ f : UnlinkEvent → Option Nat, (∀ m, f (.readFmap m) = none) →
      (pageEvents s i k).filterMap f = (f (.freePage ((kfsPage s i k).getD 0))).toList := by
    intro f hf
    have hcomp : f ∘ UnlinkEvent.readFmap = fun _ => none := funext hf
    rw [pageEvents, List.filterMap_append, hmap, hcomp, hnone, List.nil_append]
    cases hp : f (.freePage ((kfsPage s i k).getD 0)) with
    | none => rw [List.filterMap_cons_none hp]; rfl
    | some p => rw [List.filterMap_cons_some hp]; rfl
  refine ⟨?_, ?_, ?_⟩
  · rw [eventsAt, List.filterMap_append, hreads _ fun _ => rfl, hmap]
    exact congrArg _ (hnone _)
  · rw [eventsAt, List.filterMap_append, hreads _ fun _ => rfl, hmap]
    exact List.filterMap_some
  · rw [eventsAt, List.filterMap_append, hreads _ fun _ => rfl, hmap]
    exact hnone _

/-- No turn reads or frees an fmap that a turn before has freed. -/
theorem freesAt_before (hmaps : MapsOk s i) (hsize : (s.inode i).size ≤ 29 * 4096) (hkk : k < k')
    (hk : k' < pagesIn (s.inode i).size) (hm : m ∈ freesAt s i k) :
    m ∉ freesAt s i k' ∧ m ∉ mapsRead s i k' := by
  unfold pagesIn at hk
  rcases mem_freesAt.mp hm with ⟨hone, h12, rfl, -⟩ | ⟨htwo, ⟨rfl, rfl⟩ | ⟨rfl, -⟩⟩
  · exact absurd hkk (by omega)
  · obtain rfl : k' = 28 := by omega
    have hin : ∀ k, k < 29 → InFile s i k := fun k hk' =>
      Nat.lt_of_le_of_lt (Nat.mul_le_mul_right 4096 (Nat.le_of_lt_succ hk')) htwo
    have hfirst := (hmaps.second htwo 0 (hin 12 (by omega))).2.2
    have hsecond : secondMap s i 0 ≠ secondMap s i 1 := fun heq =>
      absurd (hmaps.once htwo 0 1 (hin 12 (by omega)) (hin 28 (by omega)) heq) (by omega)
    constructor
    · intro hin'
      rcases mem_freesAt.mp hin' with ⟨hone, -⟩ | ⟨-, ⟨h27, -⟩ | ⟨-, ⟨-, heq⟩ | heq⟩⟩
      · exact absurd hone (Nat.not_le.mpr htwo)
      · exact absurd h27 (by omega)
      · exact hfirst heq
      · exact hsecond heq
    · have hreads : mapsRead s i 28 = [(s.inode i).fmap, secondMap s i 1] := by
        have hsize' : ¬ (s.inode i).size ≤ 28 * 4096 := Nat.not_le.mpr htwo
        simp [mapsRead, hsize']
      rw [hreads]
      intro hin'
      rcases List.mem_cons.mp hin' with heq | heq
      · exact hfirst heq
      · exact hsecond (List.mem_singleton.mp heq)
  · exact absurd hkk (by omega)

/-- The events of a file of at most 29 pages that has no name but this one. -/
theorem kfsUnlinkEvents_short (hmaps : MapsOk s (s.dentry d).inode)
    (hcount : (s.inode (s.dentry d).inode).count = 0)
    (hsize : (s.inode (s.dentry d).inode).size ≤ 29 * 4096) : kfsUnlinkEvents s d =
      (List.range (pagesIn (s.inode (s.dentry d).inode).size)).flatMap
        (eventsAt s (s.dentry d).inode) ++ [.freeInode (s.dentry d).inode] := by
  rw [kfsUnlinkEvents]
  simp only [hcount, if_true]
  rw [unlinkEvents_short hmaps hsize]

theorem freeFmap_mem : UnlinkEvent.freeFmap m ∈ eventsAt s i k ↔ m ∈ freesAt s i k := by
  simp [eventsAt, pageEvents]

theorem readFmap_mem : UnlinkEvent.readFmap m ∈ eventsAt s i k ↔ m ∈ mapsRead s i k := by
  simp [eventsAt, pageEvents]

/-- No fmap is read behind its free, up to 29 pages. -/
theorem readsNoFreed_range (hmaps : MapsOk s i) (hsize : (s.inode i).size ≤ 29 * 4096) :
    ReadsNoFreed ((List.range (pagesIn (s.inode i).size)).flatMap (eventsAt s i) ++
      [.freeInode i]) := by
  refine List.pairwise_append.mpr ⟨List.pairwise_flatMap.mpr ⟨fun k _ => ?_, ?_⟩,
    List.pairwise_singleton _ _, fun a _ b hb m _ hread => ?_⟩
  · -- the frees of a turn come behind its reads
    refine List.pairwise_append.mpr ⟨?_, ?_, fun a _ b hb m _ hread => ?_⟩
    · refine List.pairwise_of_forall_mem_list fun a ha b _ m hfree => ?_
      rw [hfree] at ha
      simp [pageEvents] at ha
    · refine List.pairwise_of_forall_mem_list fun a _ b hb m _ hread => ?_
      rw [hread] at hb
      simp at hb
    · rw [hread] at hb
      simp at hb
  · refine List.Pairwise.imp_of_mem (fun {k k'} _ hk' hlt a ha b hb m hfree hread => ?_)
      List.pairwise_lt_range
    rw [hfree] at ha
    rw [hread] at hb
    exact (freesAt_before hmaps hsize hlt (List.mem_range.mp hk') (freeFmap_mem.mp ha)).2
      (readFmap_mem.mp hb)
  · rw [hread] at hb
    simp at hb

/-- No fmap is freed twice, up to 29 pages. -/
theorem freesAt_nodup (hmaps : MapsOk s i) (hsize : (s.inode i).size ≤ 29 * 4096) :
    ((List.range (pagesIn (s.inode i).size)).flatMap (freesAt s i)).Nodup := by
  refine List.nodup_flatMap.mpr ⟨fun k hk => ?_, ?_⟩
  · rw [freesAt]
    split
    · split
      · exact List.nodup_singleton _
      · exact List.nodup_nil
    · split
      · exact List.nodup_singleton _
      · split
        · rename_i hone _ h28
          split
          · have hlt : 28 < pagesIn (s.inode i).size := h28 ▸ List.mem_range.mp hk
            have hfirst := (hmaps.second (Nat.not_le.mp hone) 1 (pagesIn_le hlt)).2.2
            refine List.nodup_cons.mpr ⟨fun heq => hfirst ?_, List.nodup_singleton _⟩
            exact (List.mem_singleton.mp heq).symm
          · exact List.nodup_singleton _
        · exact List.nodup_nil
  · refine List.Pairwise.imp_of_mem (fun {k k'} _ hk' hlt m hm hm' => ?_) List.pairwise_lt_range
    exact (freesAt_before hmaps hsize hlt (List.mem_range.mp hk') hm).1 hm'

/-- The fmaps that are freed are those of the file when the last page is not full. -/
theorem frees_uses_iff (hmaps : MapsOk s i) (hsize : (s.inode i).size ≤ 29 * 4096) :
    (∀ m, (∃ k, k < pagesIn (s.inode i).size ∧ m ∈ freesAt s i k) ↔ UsesMap s i m) ↔
      (s.inode i).size ≤ 12 * 4096 ∨
        (s.inode i).size % 4096 ≠ 0 ∧ (s.inode i).size < 29 * 4096 := by
  have hin : ∀ k, InFile s i k ↔ k < pagesIn (s.inode i).size := fun k => by
    unfold InFile pagesIn
    omega
  have hn : pagesIn (s.inode i).size = ((s.inode i).size + 4095) / 4096 := rfl
  constructor
  · intro hall
    by_cases h12 : (s.inode i).size ≤ 12 * 4096
    · exact .inl h12
    · obtain ⟨k, hk, hm⟩ := (hall (s.inode i).fmap).mpr
        ((usesMap_iff hsize).mpr (.inl ⟨Nat.not_le.mp h12, rfl⟩))
      rcases mem_freesAt.mp hm with ⟨hone, hk12, hlast, -⟩ | ⟨htwo, ⟨hk27, heq⟩ | ⟨hk28, ⟨hend, -⟩ | heq⟩⟩
      · exact .inr (by omega)
      · exact absurd heq.symm (hmaps.second htwo 0 ((hin 12).mpr (by omega))).2.2
      · exact .inr (by omega)
      · exact absurd heq.symm (hmaps.second htwo 1 ((hin 28).mpr (by omega))).2.2
  · intro hlast m
    rw [usesMap_iff hsize]
    constructor
    · rintro ⟨k, hk, hm⟩
      rcases mem_freesAt.mp hm with ⟨-, hk12, -, heq⟩ | ⟨htwo, ⟨-, heq⟩ | ⟨-, ⟨-, heq⟩ | heq⟩⟩
      · exact .inl ⟨by omega, heq⟩
      · exact .inr ⟨htwo, .inl heq⟩
      · exact .inl ⟨by omega, heq⟩
      · exact .inr ⟨htwo, .inr heq⟩
    · rintro (⟨h12, heq⟩ | ⟨htwo, heq | heq⟩)
      · by_cases hone : (s.inode i).size ≤ 28 * 4096
        · exact ⟨(s.inode i).size / 4096, by omega, mem_freesAt.mpr (.inl ⟨hone, by omega, rfl, heq⟩)⟩
        · exact ⟨28, by omega, mem_freesAt.mpr (.inr ⟨by omega, .inr ⟨rfl, .inl ⟨by omega, heq⟩⟩⟩)⟩
      · exact ⟨27, by omega, mem_freesAt.mpr (.inr ⟨htwo, .inl ⟨rfl, heq⟩⟩)⟩
      · exact ⟨28, by omega, mem_freesAt.mpr (.inr ⟨htwo, .inr ⟨rfl, .inr heq⟩⟩)⟩

/-- The pages that are freed, up to 29. -/
theorem freedPages_short (hmaps : MapsOk s (s.dentry d).inode)
    (hcount : (s.inode (s.dentry d).inode).count = 0)
    (hsize : (s.inode (s.dentry d).inode).size ≤ 29 * 4096) :
    freedPages (kfsUnlinkEvents s d) =
      (List.range (pagesIn (s.inode (s.dentry d).inode).size)).map
        fun k => (kfsPage s (s.dentry d).inode k).getD 0 := by
  rw [kfsUnlinkEvents_short hmaps hcount hsize, freedPages, List.filterMap_append,
    List.filterMap_flatMap]
  simp only [(eventsAt_freed s _ _).1]
  rw [← List.map_eq_flatMap]
  exact List.append_nil _

/-- The fmaps that are freed, up to 29 pages. -/
theorem freedFmaps_short (hmaps : MapsOk s (s.dentry d).inode)
    (hcount : (s.inode (s.dentry d).inode).count = 0)
    (hsize : (s.inode (s.dentry d).inode).size ≤ 29 * 4096) :
    freedFmaps (kfsUnlinkEvents s d) =
      (List.range (pagesIn (s.inode (s.dentry d).inode).size)).flatMap
        (freesAt s (s.dentry d).inode) := by
  rw [kfsUnlinkEvents_short hmaps hcount hsize, freedFmaps, List.filterMap_append,
    List.filterMap_flatMap]
  simp only [(eventsAt_freed s _ _).2.1]
  exact List.append_nil _

theorem freedInodes_short (hmaps : MapsOk s (s.dentry d).inode)
    (hcount : (s.inode (s.dentry d).inode).count = 0)
    (hsize : (s.inode (s.dentry d).inode).size ≤ 29 * 4096) :
    freedInodes (kfsUnlinkEvents s d) = [(s.dentry d).inode] := by
  rw [kfsUnlinkEvents_short hmaps hcount hsize, freedInodes, List.filterMap_append,
    List.filterMap_flatMap]
  simp only [(eventsAt_freed s _ _).2.2]
  rw [List.flatMap_eq_nil_iff.mpr fun _ _ => rfl]
  rfl

/-- From 30 pages on, the second group is read behind the page 28, with which it is freed. -/
theorem readsFreed_long (hmaps : MapsOk s (s.dentry d).inode)
    (hcount : (s.inode (s.dentry d).inode).count = 0)
    (hsize : 29 * 4096 < (s.inode (s.dentry d).inode).size) :
    ¬ ReadsNoFreed (kfsUnlinkEvents s d) := by
  obtain ⟨m, hm⟩ : ∃ m, pagesIn (s.inode (s.dentry d).inode).size = 29 + (m + 1) :=
    ⟨pagesIn (s.inode (s.dentry d).inode).size - 30, by unfold pagesIn; omega⟩
  obtain ⟨f2', freemap', t, heq, hmap⟩ := unlinkEvents_two hmaps (by omega) hm
  have hfree : UnlinkEvent.freeFmap (secondMap s (s.dentry d).inode 1) ∈
      (List.range 29).flatMap (eventsAt s (s.dentry d).inode) :=
    List.mem_flatMap.mpr ⟨28, List.mem_range.mpr (by omega),
      freeFmap_mem.mpr (mem_freesAt.mpr (.inr ⟨by omega, .inr ⟨rfl, .inr rfl⟩⟩))⟩
  have hread : UnlinkEvent.readFmap (secondMap s (s.dentry d).inode 1) ∈
      unlinkEvents (s.dentry d).inode (s.inode (s.dentry d).inode).size
        (s.inode (s.dentry d).inode).fmap (m + 1) 29 f2' freemap' t := by
    have hsize' : ¬ (s.inode (s.dentry d).inode).size ≤ 28 * 4096 := by omega
    rw [unlinkEvents]
    refine List.mem_append_left _ (List.mem_append_left _ (List.mem_map.mpr ⟨_, ?_, rfl⟩))
    simp only [unlinkTurn, hsize', if_false, show ¬ 29 < 12 by omega]
    rw [show (29 - 12) / 16 = 1 from rfl, hmap (Nat.succ_ne_zero m)]
    exact List.mem_cons_of_mem _ List.mem_cons_self
  intro hreads
  rw [kfsUnlinkEvents] at hreads
  simp only [hcount, if_true] at hreads
  rw [heq] at hreads
  exact (List.pairwise_append.mp (List.pairwise_append.mp hreads).1).2.2 _ hfree _ hread _ rfl rfl

/-- A page of the file is found. -/
theorem kfsPage_inFile (hk : InFile s i k) : ∃ p, kfsPage s i k = some p := by
  rw [kfsPage_eq]
  by_cases h12 : k < 12
  · exact ⟨_, by rw [pageCell_direct hk h12]; rfl⟩
  · by_cases hsize : (s.inode i).size ≤ 28 * 4096
    · exact ⟨_, by rw [pageCell_first hk (Nat.not_lt.mp h12) hsize]; rfl⟩
    · exact ⟨_, by rw [pageCell_second hk (Nat.not_lt.mp h12) (Nat.not_le.mp hsize)]; rfl⟩

/-- The pages that are listed, when none is a hole. -/
theorem NoHoles.mem_iff (h : NoHoles s i) :
    p ∈ (List.range (pagesIn (s.inode i).size)).map (fun k => (kfsPage s i k).getD 0) ↔
      HasPage s i p := by
  rw [List.mem_map]
  constructor
  · rintro ⟨k, hk, rfl⟩
    have hin := pagesIn_le (List.mem_range.mp hk)
    obtain ⟨p, hp⟩ := kfsPage_inFile hin
    have hne : p ≠ 0 := fun hp0 => h k hin (hp0 ▸ hp)
    rw [hp]
    exact ⟨hne, k, hin, hp⟩
  · rintro ⟨-, k, hin, hp⟩
    refine ⟨k, List.mem_range.mpr ?_, by rw [hp]; rfl⟩
    unfold InFile at hin
    unfold pagesIn
    omega

/-- `kfs_unlink` of a name releases what the file has, and reads nothing that is freed, when its
count is 0, no page is a hole, and it has at most 12 pages, or at most 29 of which the last
is not full. -/
theorem kfsUnlink_releases_iff (h : NameInv s) (habs : path.byte 0 = slash)
    (hshort : ShortNames 27 path) (hd : NamesTo s d (pathNames path)) (hd0 : d ≠ 0)
    (hown : OwnMaps s (s.dentry d).inode) : ReleasesExactly s path d (s.dentry d).inode ↔
      (s.inode (s.dentry d).inode).count = 0 ∧ NoHoles s (s.dentry d).inode ∧
        ((s.inode (s.dentry d).inode).size ≤ 12 * 4096 ∨
          (s.inode (s.dentry d).inode).size % 4096 ≠ 0 ∧
            (s.inode (s.dentry d).inode).size < 29 * 4096) := by
  have hmem : ∀ n (l : Nat → List Nat) m, m ∈ (List.range n).flatMap l ↔ ∃ k, k < n ∧ m ∈ l k :=
    fun n l m => by simp only [List.mem_flatMap, List.mem_range]
  constructor
  · intro hr
    have hcount : (s.inode (s.dentry d).inode).count = 0 := by
      by_contra hcount
      have hinodes := hr.inodes
      rw [kfsUnlinkEvents] at hinodes
      simp only [hcount, if_false] at hinodes
      exact absurd hinodes (List.cons_ne_nil _ _).symm
    have h29 : (s.inode (s.dentry d).inode).size ≤ 29 * 4096 := by
      by_contra hlong
      exact readsFreed_long hown.toMapsOk hcount (Nat.not_le.mp hlong) hr.reads
    refine ⟨hcount, fun k hk hhole => ?_, (frees_uses_iff hown.toMapsOk h29).mp fun m => ?_⟩
    · refine ((hr.pages 0).mp ?_).1 rfl
      rw [freedPages_short hown.toMapsOk hcount h29]
      refine List.mem_map.mpr ⟨k, List.mem_range.mpr ?_, by rw [hhole]; rfl⟩
      unfold InFile at hk
      unfold pagesIn
      omega
    · rw [← hr.fmaps m, freedFmaps_short hown.toMapsOk hcount h29, hmem]
  · rintro ⟨hcount, hholes, hlast⟩
    have h29 : (s.inode (s.dentry d).inode).size ≤ 29 * 4096 := by omega
    have hpages := freedPages_short hown.toMapsOk hcount h29
    have hfmaps := freedFmaps_short hown.toMapsOk hcount h29
    have hinodes := freedInodes_short hown.toMapsOk hcount h29
    have hpage : ∀ p, p ∈ freedPages (kfsUnlinkEvents s d) ↔ HasPage s (s.dentry d).inode p :=
      fun p => by rw [hpages, hholes.mem_iff]
    have hfmap : ∀ m, m ∈ freedFmaps (kfsUnlinkEvents s d) ↔ UsesMap s (s.dentry d).inode m :=
      fun m => by rw [hfmaps, hmem, (frees_uses_iff hown.toMapsOk h29).mpr hlast]
    refine ⟨?_, ?_, hpage, ?_, hfmap, fun m hm => ?_, hinodes, ?_⟩
    · obtain ⟨s', hunlink, hpageMap, hfmapMap, hinodeMap⟩ := kfsUnlink_events h habs hshort hd hd0
      refine ⟨s', hunlink, fun p => ?_, fun m => ?_, fun j => ?_⟩
      · rw [hpageMap, foldl_isSet Kfs.pageMap UnlinkEvent.freedPage
          fun s e => by cases e <;> rfl]
        exact and_congr_right fun _ => not_congr (hpage p)
      · rw [hfmapMap, foldl_isSet Kfs.fmapMap UnlinkEvent.freedFmap
          fun s e => by cases e <;> rfl]
        exact and_congr_right fun _ => not_congr (hfmap m)
      · rw [hinodeMap, foldl_isSet Kfs.inodeMap UnlinkEvent.freedInode
          fun s e => by cases e <;> rfl]
        refine and_congr_right fun _ => not_congr ?_
        show j ∈ freedInodes (kfsUnlinkEvents s d) ↔ _
        rw [hinodes, List.mem_singleton]
    · rw [hpages]
      refine List.Nodup.map_on (fun k hk k' hk' heq => ?_) List.nodup_range
      have hin := pagesIn_le (List.mem_range.mp hk)
      have hin' := pagesIn_le (List.mem_range.mp hk')
      obtain ⟨p, hp⟩ := kfsPage_inFile hin
      obtain ⟨p', hp'⟩ := kfsPage_inFile hin'
      rw [hp, hp', Option.getD_some, Option.getD_some] at heq
      exact hown.pagesOnce k k' p hin hin' hp (heq ▸ hp') fun hp0 => hholes k hin (hp0 ▸ hp)
    · rw [hfmaps]
      exact freesAt_nodup hown.toMapsOk h29
    · rcases (hfmap m).mp hm with ⟨h12, rfl⟩ | ⟨h28, j, hj, rfl⟩
      · exact hown.firstNe h12
      · exact (hown.second h28 j hj).1
    · rw [kfsUnlinkEvents_short hown.toMapsOk hcount h29]
      exact readsNoFreed_range hown.toMapsOk h29

theorem ownMaps_of_small (h : (s.inode i).size ≤ 4096) : OwnMaps s i where
  toMapsOk := mapsOk_of_small (by omega)
  firstNe := fun h12 => by
    unfold InFile at h12
    omega
  pagesOnce := fun k k' _ hk hk' _ _ _ => by
    unfold InFile at hk hk'
    omega

/-- `/f`, after its first `kfs_open`. -/
theorem kfsOpen_slashF : ∃ s, kfsOp kfsStart (.open_ slashF) = some s ∧ NameInv s ∧
    NamesTo s 1 (pathNames slashF) ∧ namesOf s (s.dentry 1).inode = {1} ∧
    (s.inode (s.dentry 1).inode).count = 1 ∧ (s.inode (s.dentry 1).inode).size = 0 := by
  have hval : (kfsOp kfsStart (.open_ slashF)).map (fun s => (namesOf s (s.dentry 1).inode,
      (s.inode (s.dentry 1).inode).count, (s.inode (s.dentry 1).inode).size)) = some ({1}, 1, 0) := by
    decide +kernel
  obtain ⟨s, hop, hinv, hnames⟩ := kfsOpen_start slashF (pathNames slashF) 1 rfl
    rfl (by decide +kernel) (by unfold Enough; decide +kernel) (by decide +kernel)
  rw [hop, Option.map_some, Option.some.injEq, Prod.mk.injEq, Prod.mk.injEq] at hval
  exact ⟨s, hop, hinv, hnames, hval.1, hval.2.1, hval.2.2⟩

/-- A file of a page, with the count 0. -/
theorem kfsUnlink_releases_page : ∃ s, (s.inode (s.dentry 1).inode).size = 4096 ∧
    HasPage s (s.dentry 1).inode 98 ∧ ReleasesExactly s slashF 1 (s.dentry 1).inode := by
  obtain ⟨s₀, -, hinv₀, hnames₀, -, -, -⟩ := kfsOpen_slashF
  obtain ⟨s, hs⟩ : ∃ s, s = s₀.setInode (s₀.dentry 1).inode fun e =>
    { e with count := 0, size := 4096, page := fun _ => 98 } := ⟨_, rfl⟩
  have hlinks : SameLinks s₀ s := .of_dentry (by rw [hs]; rfl) (by rw [hs]; rfl)
  have hinode : s.inode (s.dentry 1).inode =
      { s₀.inode (s₀.dentry 1).inode with count := 0, size := 4096, page := fun _ => 98 } := by
    rw [hs]
    exact Kfs.setInode_inode
  have hsize : (s.inode (s.dentry 1).inode).size = 4096 := by rw [hinode]
  have hpage : kfsPage s (s.dentry 1).inode 0 = some 98 := by
    rw [kfsPage_eq, pageCell_direct (by unfold InFile; omega) (by omega), Option.map_some,
      Kfs.load, hinode]
  have hholes : NoHoles s (s.dentry 1).inode := by
    intro k hk
    obtain rfl : k = 0 := by
      unfold InFile at hk
      omega
    rw [hpage]
    decide
  refine ⟨s, hsize, ⟨by decide, 0, by unfold InFile; omega, hpage⟩, ?_⟩
  have hshort : ∀ c ∈ pathNames slashF, c.length ≤ 27 := by decide +kernel
  exact (kfsUnlink_releases_iff (hlinks.nameInv hinv₀) rfl hshort
    (hlinks.namesTo hinv₀.toDirTree hnames₀) (by decide) (ownMaps_of_small (by omega))).mpr
      ⟨by rw [hinode], hholes, .inl (by omega)⟩

/-- `/f` is made and removed: its inode is not released. -/
theorem kfsUnlink_releases_nothing : ∃ s, kfsOp kfsStart (.open_ slashF) = some s ∧
    NamesTo s 1 (pathNames slashF) ∧ namesOf s (s.dentry 1).inode = {1} ∧
    OwnMaps s (s.dentry 1).inode ∧ ¬ ReleasesExactly s slashF 1 (s.dentry 1).inode := by
  obtain ⟨s, hop, -, hnames, hone, hcount, hsize⟩ := kfsOpen_slashF
  refine ⟨s, hop, hnames, hone, ownMaps_of_small (by omega), fun hr => ?_⟩
  have hinodes := hr.inodes
  rw [kfsUnlinkEvents] at hinodes
  simp only [hcount] at hinodes
  exact absurd hinodes (List.cons_ne_nil _ _).symm

end

end Ko6.Fs
