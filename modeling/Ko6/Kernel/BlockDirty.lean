import Ko6.Kernel.BlockIo

set_option autoImplicit false

/-!
# Kernel: dirty blocks and their write-back

The holder of a block marks it dirty, `blockio_sync` writes a dirty block to its
device and `blockio_release` does so before it gives the last reference up.  What
a device answers is free at every call: each call of a run has its own devices.

The mark is cleared after the write whatever the device answered.  A block is
therefore kept exactly as long as no write-back of a dirty page fails, which is
`dirtyRun_kept`; the status of a failed write is always returned.
-/

namespace Ko6.Kernel

open Ko6.Lib Ko6.Common

/-! ## Calls and runs -/

/-- What the holders did with the contents of a page since `blockio_get`: never
marked, marked since the last successful write-back, or written back as `data`. -/
inductive Mark where
  | clean
  | pending
  | saved (data : Nat → BitVec 8)

/-- The calls that may write a page to its device. -/
inductive BlockCall where
  | sync
  | release
  deriving DecidableEq, Repr

section
variable (L : Layout) (devs : Nat → Option BlockDev)

/-- What the device answers to the write of a page; `none` when its driver has no
write operation. -/
def deviceWrite (s : Io) (page : Nat) : Option Int :=
  ((devs (pageGetLba L s.kmem page).1).bind BlockDev.write).map
    fun write => write (pageGetLba L s.kmem page).2 (pageData s.kmem page)

/-- `blockio_sync` writes the page and the device accepts it. -/
def wroteBack (s : Io) (page : Nat) : Bool :=
  pageIsDirty L s.kmem page && deviceWrite L devs s page = some 0

namespace BlockCall

def exec : BlockCall → Nat → Io → Option (Int × Io)
  | sync, page, s => some (blockioSync L devs page s)
  | release, page, s => blockioRelease L devs page s

/-- `blockio_release` writes back only for the last reference. -/
def writesBack (s : Io) (page : Nat) : BlockCall → Bool
  | sync => true
  | release => pageGetRefcount L s.kmem page = 1

/-- The pages not given back to the allocator after the call. -/
def heldAfter (s : Io) (page : Nat) (held : Nat → Prop) : BlockCall → Nat → Prop
  | sync => held
  | release => fun p => held p ∧ (p = page → pageGetRefcount L s.kmem page ≠ 1)

def markAfter (s : Io) (page : Nat) (mark : Nat → Mark) (c : BlockCall) : Nat → Mark :=
  if c.writesBack L s page && wroteBack L devs s page then
    Function.update mark page (.saved (pageData s.kmem page))
  else mark

/-- The write-back of a dirty page does not fail.  Before the page is given up it
must not be left out either, for want of a write operation. -/
def WriteBackOk (s : Io) (page : Nat) : BlockCall → Prop
  | sync => pageIsDirty L s.kmem page = true → ∀ err, deviceWrite L devs s page = some err → err = 0
  | release => pageGetRefcount L s.kmem page = 1 → pageIsDirty L s.kmem page = true →
      deviceWrite L devs s page = some 0

end BlockCall

end

/-- The states reached by calls on the pages obtained and not yet given back, with
any devices at each call.  A holder changes a page and marks it dirty.  Every
write-back meets the condition `ok`. -/
inductive DirtyRun (L : Layout) (s₀ : Kmem)
    (ok : (Nat → Option BlockDev) → Io → Nat → BlockCall → Prop) :
    Io → (Nat → Prop) → (Nat → Mark) → Prop where
  | start {s : Kmem} {live : Live} : SlabRun L s₀ s live →
      DirtyRun L s₀ ok ⟨s, []⟩ (fun _ => False) fun _ => .clean
  | get {s s' : Io} {held : Nat → Prop} {mark : Nat → Mark} {devs : Nat → Option BlockDev}
      {bdev lba page : Nat} :
      DirtyRun L s₀ ok s held mark → blockioGet L devs bdev lba s = some (page, s') → page ≠ 0 →
      DirtyRun L s₀ ok s' (fun p => p = page ∨ held p) (Function.update mark page .clean)
  | getFails {s s' : Io} {held : Nat → Prop} {mark : Nat → Mark}
      {devs : Nat → Option BlockDev} {bdev lba : Nat} :
      DirtyRun L s₀ ok s held mark → blockioGet L devs bdev lba s = some (0, s') →
      DirtyRun L s₀ ok s' held mark
  | modify {s : Io} {held : Nat → Prop} {mark : Nat → Mark} {page : Nat}
      {data : Nat → BitVec 8} : DirtyRun L s₀ ok s held mark → held page →
      DirtyRun L s₀ ok { s with kmem := pageSetDirty L (loadPage s.kmem page data) page } held
        (Function.update mark page .pending)
  | call {s s' : Io} {held : Nat → Prop} {mark : Nat → Mark} {devs : Nat → Option BlockDev}
      {page : Nat} {err : Int} (c : BlockCall) : DirtyRun L s₀ ok s held mark → held page →
      ok devs s page c → c.exec L devs page s = some (err, s') →
      DirtyRun L s₀ ok s' (c.heldAfter L s page held) (c.markAfter L devs s page mark)

/-- A page marked dirty since its last successful write-back is still marked and
not given back; a page held after a write-back has the contents written. -/
structure NoDirtyLost (L : Layout) (s : Io) (held : Nat → Prop) (mark : Nat → Mark) : Prop where
  pending : ∀ page, mark page = .pending →
    held page ∧ pageIsDirty L s.kmem page = true ∧ ¬ InFreeList L s.kmem page
  saved : ∀ page data, held page → mark page = .saved data →
    ∀ i, i < pageSize → pageData s.kmem page i = data i

/-- `blockio_sync` reports every write that fails. -/
def SyncReports (L : Layout) (s : Io) : Prop :=
  ∀ (devs : Nat → Option BlockDev) page, page ≠ 0 → pageIsDirty L s.kmem page = true →
    deviceWrite L devs s page ≠ some 0 → (blockioSync L devs page s).1 ≠ 0

/-! ## One call -/

section
variable {L : Layout} {devs : Nat → Option BlockDev} {s₀ k k' : Kmem} {s s' : Io} {refs : Refs}
  {live : Live} {kind : Kinds} {free : Nat → List Nat} {held : Nat → Prop}
  {mark : Nat → Mark} {p q page c n : Nat} {err : Int} {m : Mark}

theorem blockioSync_cases (L : Layout) (devs : Nat → Option BlockDev) (s : Io)
    (hpage : page ≠ 0) :
    (pageIsDirty L s.kmem page = false ∧ blockioSync L devs page s = (0, s)) ∨
    (pageIsDirty L s.kmem page = true ∧ deviceWrite L devs s page = none ∧
      blockioSync L devs page s = (-eio, s)) ∨
    ∃ err written, pageIsDirty L s.kmem page = true ∧ deviceWrite L devs s page = some err ∧
      blockioSync L devs page s = (err, ⟨pageClrDirty L s.kmem page, written⟩) := by
  unfold blockioSync deviceWrite
  rw [if_neg hpage]
  cases hdirty : pageIsDirty L s.kmem page with
  | false => exact .inl ⟨rfl, by simp⟩
  | true =>
    simp only [Bool.not_true, Bool.false_eq_true, if_false, reduceCtorEq, false_and, false_or,
      true_and]
    cases (devs (pageGetLba L s.kmem page).1).bind BlockDev.write with
    | none => exact .inl ⟨rfl, rfl⟩
    | some write => exact .inr ⟨_, _, rfl, rfl⟩

theorem syncReports (L : Layout) (s : Io) : SyncReports L s := by
  intro devs page hpage hdirty hfail
  rcases blockioSync_cases L devs s hpage with
    ⟨hclean, -⟩ | ⟨-, -, heq⟩ | ⟨err, written, -, hwrite, heq⟩
  · rw [hdirty] at hclean
    exact absurd hclean (by decide)
  · rw [heq]
    exact (by decide : -eio ≠ 0)
  · rw [heq]
    intro h0
    exact hfail (hwrite.trans (congrArg some h0))

/-- What `dirty` and the contents of one held page say about its mark. -/
structure PageOk (L : Layout) (k : Kmem) (m : Mark) (page : Nat) : Prop where
  dirty_iff : pageIsDirty L k page = true ↔ m = .pending
  saved : ∀ data, m = .saved data → ∀ i, i < pageSize → pageData k page i = data i

theorem PageOk.same (h : PageOk L k m (L.pageAddr p)) (hp : Counted L k live kind p c)
    (hs : SamePage L k k' p) : PageOk L k' m (L.pageAddr p) := by
  constructor
  · rw [← h.dirty_iff, pageIsDirty, pageIsDirty, hp.pageIdx, hs.desc]
  · intro data hm i hi
    rw [← h.saved data hm i hi]
    exact hs.bytes _ (Nat.le_add_right _ _) (by omega)

/-- The invariant of a run without failing write-backs. -/
structure DirtyInv (L : Layout) (s : Io) (held : Nat → Prop) (mark : Nat → Mark) (refs : Refs)
    (live : Live) (kind : Kinds) (free : Nat → List Nat) : Prop where
  block : BlockInv L s refs live kind free
  held_iff : ∀ page, held page ↔ refs page ≠ none
  pages : ∀ page, held page → PageOk L s.kmem (mark page) page
  pending_held : ∀ page, mark page = .pending → held page

theorem DirtyInv.counted (h : DirtyInv L s held mark refs live kind free) (hheld : held page) :
    ∃ n p, refs page = some n ∧ n ≤ 1 ∧ page = L.pageAddr p ∧
      Counted L s.kmem live kind p (n + 1) := by
  obtain ⟨n, hn⟩ := Option.ne_none_iff_exists'.mp ((h.held_iff page).mp hheld)
  obtain ⟨hle, p, hp, hc⟩ := h.block.held page n hn
  exact ⟨n, p, hn, hle, hp, hc⟩

/-- The invariant after a step on page `p` that leaves the other held pages alone. -/
theorem DirtyInv.step {refs' : Refs} {live' : Live} {free' : Nat → List Nat}
    {held' : Nat → Prop} (h : DirtyInv L s held mark refs live kind free)
    (hinv : BlockInv L s' refs' live' kind free')
    (hrefs : ∀ page, page ≠ L.pageAddr p → refs' page = refs page)
    (hheld : ∀ page, page ≠ L.pageAddr p → (held' page ↔ held page))
    (hsame : ∀ q c, q ≠ p → Counted L s.kmem live kind q c → SamePage L s.kmem s'.kmem q)
    (hown : held' (L.pageAddr p) ↔ refs' (L.pageAddr p) ≠ none)
    (hok : held' (L.pageAddr p) → PageOk L s'.kmem m (L.pageAddr p))
    (hpend : m = .pending → held' (L.pageAddr p)) :
    DirtyInv L s' held' (Function.update mark (L.pageAddr p) m) refs' live' kind free' := by
  refine ⟨hinv, ?_, ?_, ?_⟩
  · intro page
    by_cases hpg : page = L.pageAddr p
    · rw [hpg]
      exact hown
    · rw [hheld page hpg, hrefs page hpg]
      exact h.held_iff page
  · intro page hpage
    by_cases hpg : page = L.pageAddr p
    · rw [hpg] at hpage ⊢
      rw [Function.update_self]
      exact hok hpage
    · have hold := (hheld page hpg).mp hpage
      obtain ⟨n, q, -, -, rfl, hc⟩ := h.counted hold
      have hqp : q ≠ p := fun he => hpg (by rw [he])
      rw [Function.update_of_ne hpg]
      exact (h.pages _ hold).same hc (hsame q _ hqp hc)
  · intro page hm
    by_cases hpg : page = L.pageAddr p
    · rw [hpg] at hm ⊢
      rw [Function.update_self] at hm
      exact hpend hm
    · rw [Function.update_of_ne hpg] at hm
      exact (hheld page hpg).mpr (h.pending_held page hm)

theorem DirtyInv.kept (h : DirtyInv L s held mark refs live kind free) :
    NoDirtyLost L s held mark := by
  constructor
  · intro page hm
    have hheld := h.pending_held page hm
    obtain ⟨n, p, -, -, rfl, hc⟩ := h.counted hheld
    exact ⟨hheld, (h.pages _ hheld).dirty_iff.mpr hm, hc.not_inFreeList h.block.toInv⟩
  · exact fun page data hheld => (h.pages page hheld).saved data

/-- `blockio_get`: no page, or one more that is clean. -/
theorem DirtyInv.get {bdev lba : Nat} (h : DirtyInv L s held mark refs live kind free)
    (hget : blockioGet L devs bdev lba s = some (page, s')) :
    ∃ refs' live' free', (page = 0 ∧ DirtyInv L s' held mark refs' live' kind free') ∨
      page ≠ 0 ∧ DirtyInv L s' (fun p => p = page ∨ held p) (Function.update mark page .clean)
        refs' live' kind free' := by
  obtain ⟨refs', live', free', hinv, -, hsame, ⟨h0, rfl, -⟩ | ⟨h0, -, hrefs, hclean⟩⟩ :=
    h.block.get hget
  · refine ⟨refs', live', free', .inl ⟨h0, hinv, h.held_iff, ?_, h.pending_held⟩⟩
    intro page hpage
    obtain ⟨n, q, -, -, rfl, hc⟩ := h.counted hpage
    exact (h.pages _ hpage).same hc (hsame q _ hc)
  · have hpage : refs' page = some 1 := by rw [hrefs, Function.update_self]
    obtain ⟨-, p, rfl, hp⟩ := hinv.held page 1 hpage
    refine ⟨refs', live', free', .inr ⟨h0, h.step hinv ?_ ?_ ?_ ?_ ?_ ?_⟩⟩
    · intro page hpg
      rw [hrefs, Function.update_of_ne hpg]
    · intro page hpg
      simp only [hpg, false_or]
    · exact fun q c _ hc => hsame q c hc
    · simp [hpage]
    · intro _
      refine ⟨?_, fun data hm => by simp at hm⟩
      simp [hclean]
    · intro hm
      simp at hm

/-- A holder changes the page and marks it. -/
theorem DirtyInv.modify (h : DirtyInv L s held mark refs live kind free) (hheld : held page)
    (data : Nat → BitVec 8) :
    DirtyInv L { s with kmem := pageSetDirty L (loadPage s.kmem page data) page } held
      (Function.update mark page .pending) refs live kind free := by
  obtain ⟨n, p, href, -, rfl, hp⟩ := h.counted hheld
  refine h.step (h.block.modify href data) (fun _ _ => rfl) (fun _ _ => Iff.rfl) ?_
    (h.held_iff _) ?_ fun _ => hheld
  · intro q c hqp hc
    have hap := pageAddr_apart (L := L) hqp
    constructor
    · simp only [pageSetDirty, hp.pageIdx, Kmem.modPage_page, Function.update_of_ne hqp]
      rfl
    · intro b hlo hhi
      simp only [pageSetDirty, Kmem.modPage_mem, loadPage]
      rw [if_neg (by omega)]
  · intro _
    refine ⟨?_, fun data hm => by simp at hm⟩
    simp only [pageSetDirty, pageIsDirty, hp.pageIdx, Kmem.modPage_page, Function.update_self,
      PageDesc.dirty_setDirty, decide_true]

/-- `dirty` is cleared. -/
theorem Counted.clrDirty (hp : Counted L k live kind p c) :
    pageIsDirty L (pageClrDirty L k (L.pageAddr p)) (L.pageAddr p) = false ∧
    (∀ q, q ≠ p → SamePage L k (pageClrDirty L k (L.pageAddr p)) q) ∧
    pageData (pageClrDirty L k (L.pageAddr p)) (L.pageAddr p) = pageData k (L.pageAddr p) := by
  simp only [pageClrDirty, pageIsDirty, hp.pageIdx]
  refine ⟨?_, fun q hqp => ⟨?_, fun _ _ _ => rfl⟩, rfl⟩
  · rw [Kmem.modPage_page, Function.update_self, PageDesc.dirty_setDirty]
    decide
  · rw [Kmem.modPage_page, Function.update_of_ne hqp]

/-- The last reference is given up: the page goes back to the allocator. -/
theorem BlockInv.last (h : BlockInv L s refs live kind free)
    (href : refs (L.pageAddr p) = some 0) :
    ∃ k₁ k' live' free', pageDecRefcount L s.kmem (L.pageAddr p) = some (0, k₁) ∧
      kfree L (L.pageAddr p) k₁ = some k' ∧
      BlockInv L { s with kmem := k' } (Function.update refs (L.pageAddr p) none) live' kind
        free' ∧
      (∀ q c, q ≠ p → Counted L s.kmem live kind q c → SamePage L s.kmem k' q) ∧
      pageIsDirty L k' (L.pageAddr p) = false := by
  obtain ⟨-, q, hq, hp⟩ := h.held _ _ href
  obtain rfl := pageAddr_inj hq
  have hcount := hp.refcount (by decide)
  have hinv := h.toInv.modPage hp (f := (·.setRefcount (BitVec.ofNat 8 0)))
    (by simpa using h.toInv.type_ne_free hp) (by simp)
  obtain ⟨k', free', hk', hinv', hpage', -, hmem'⟩ :=
    hinv.kfree_page hp.page_lt hp.kind_zero hp.alive
  have hdesc : ∀ q, q ≠ p → k'.page q = s.kmem.page q := by
    intro q hqp
    rw [hpage', Function.update_of_ne hqp, Kmem.modPage_page, Function.update_of_ne hqp]
  refine ⟨_, k', _, free', ?_, hk', ⟨hinv', ?_⟩, ?_, ?_⟩
  · simp only [pageDecRefcount, hcount, hp.pageIdx]
    rfl
  · intro page n hn
    by_cases hpg : page = L.pageAddr p
    · rw [hpg, Function.update_self] at hn
      exact absurd hn (by simp)
    · rw [Function.update_of_ne hpg] at hn
      obtain ⟨hle, q, rfl, hc⟩ := h.held page n hn
      have hqp : q ≠ p := fun he => hpg (by rw [he])
      refine ⟨hle, q, rfl, hc.page_lt, hc.kind_zero, ?_, ?_⟩
      · rw [Function.update_of_ne hpg]
        exact hc.alive
      · rw [hdesc q hqp, hc.count]
  · intro q c hqp hc
    refine ⟨hdesc q hqp, fun b hlo hhi => ?_⟩
    refine (hmem' b ⟨L.pageAddr q, q, 0, piece_of_page hc.page_lt hc.kind_zero, ?_, hlo, ?_⟩)
    · rw [Function.update_of_ne fun he => hqp (pageAddr_inj he)]
      exact hc.alive
    · rwa [hc.kind_zero, Layout.objSize, if_pos rfl]
  · rw [pageIsDirty, hp.pageIdx, hpage', Function.update_self]
    decide

theorem wroteBack_iff : wroteBack L devs s page = true ↔
    pageIsDirty L s.kmem page = true ∧ deviceWrite L devs s page = some 0 := by
  simp only [wroteBack, Bool.and_eq_true, decide_eq_true_eq]

theorem markAfter_of (c : BlockCall) (hb : c.writesBack L s page = true)
    (hw : wroteBack L devs s page = true) :
    c.markAfter L devs s page mark
      = Function.update mark page (.saved (pageData s.kmem page)) := by
  rw [BlockCall.markAfter, hb, hw]
  rfl

theorem markAfter_of_not (c : BlockCall)
    (hw : ¬ (c.writesBack L s page = true ∧ wroteBack L devs s page = true)) :
    c.markAfter L devs s page mark = mark := by
  rw [BlockCall.markAfter, if_neg (by rwa [Bool.and_eq_true])]

/-- `blockio_sync` of a held page: the invariant, or a mark that is lost. -/
theorem DirtyInv.sync (devs : Nat → Option BlockDev)
    (h : DirtyInv L s held mark refs live kind free) (hheld : held page) :
    ((BlockCall.sync.WriteBackOk L devs s page ∧
        DirtyInv L (blockioSync L devs page s).2 held
          (BlockCall.sync.markAfter L devs s page mark) refs live kind free) ∨
      (¬ BlockCall.sync.WriteBackOk L devs s page ∧
        BlockCall.sync.markAfter L devs s page mark page = .pending ∧
        pageIsDirty L (blockioSync L devs page s).2.kmem page = false)) := by
  obtain ⟨n, p, href, -, rfl, hp⟩ := h.counted hheld
  rcases blockioSync_cases L devs s (pageAddr_ne_zero (p := p)) with ⟨hclean, heq⟩ | ⟨hdirty, hnone, heq⟩ | ⟨err, written, hdirty, hw, heq⟩
  · -- nothing to write
    left
    rw [heq, markAfter_of_not _ fun hb => by simp [wroteBack_iff, hclean] at hb]
    exact ⟨fun hd => by simp [hclean] at hd, h⟩
  · -- no write operation: the mark is kept
    left
    rw [heq, markAfter_of_not _ fun hb => by simp [wroteBack_iff, hnone] at hb]
    exact ⟨fun _ err he => by simp [hnone] at he, h⟩
  · obtain ⟨hcl, hsame, hdata⟩ := hp.clrDirty
    have hinv : BlockInv L ⟨pageClrDirty L s.kmem (L.pageAddr p), written⟩ refs live kind free := by
      simp only [pageClrDirty, hp.pageIdx]
      exact h.block.setDirty href 0 written
    rw [heq]
    by_cases h0 : err = 0
    · -- the block is on the device
      left
      subst h0
      rw [markAfter_of _ rfl (wroteBack_iff.mpr ⟨hdirty, hw⟩)]
      refine ⟨fun _ err he => ?_, ?_⟩
      · rw [hw, Option.some.injEq] at he
        exact he.symm
      · refine h.step hinv (fun _ _ => rfl) (fun _ _ => Iff.rfl) (fun q _ hqp _ => hsame q hqp)
          (h.held_iff _) ?_ fun _ => hheld
        intro _
        refine ⟨by simp [hcl], fun data hm i _ => ?_⟩
        rw [Mark.saved.injEq] at hm
        rw [hdata, hm]
    · -- the mark is cleared although the write failed
      right
      rw [markAfter_of_not _ fun hb => by simp [wroteBack_iff, hw, h0] at hb]
      exact ⟨fun hok => h0 (hok hdirty err hw), (h.pages _ hheld).dirty_iff.mp hdirty, hcl⟩

/-- What `blockio_sync` leaves of the invariant whatever the device answers. -/
theorem BlockInv.sync (devs : Nat → Option BlockDev) (h : BlockInv L s refs live kind free)
    (href : refs (L.pageAddr p) = some n) :
    BlockInv L (blockioSync L devs (L.pageAddr p) s).2 refs live kind free ∧
      ∀ q c, q ≠ p → Counted L s.kmem live kind q c →
        SamePage L s.kmem (blockioSync L devs (L.pageAddr p) s).2.kmem q := by
  obtain ⟨-, q, hq, hp⟩ := h.held _ _ href
  obtain rfl := pageAddr_inj hq
  rcases blockioSync_cases L devs s (pageAddr_ne_zero (p := p)) with ⟨-, heq⟩ | ⟨-, -, heq⟩ | ⟨err, written, -, -, heq⟩
  · rw [heq]
    exact ⟨h, fun q _ _ _ => ⟨rfl, fun _ _ _ => rfl⟩⟩
  · rw [heq]
    exact ⟨h, fun q _ _ _ => ⟨rfl, fun _ _ _ => rfl⟩⟩
  · rw [heq]
    refine ⟨?_, fun q _ hqp _ => hp.clrDirty.2.1 q hqp⟩
    simp only [pageClrDirty, hp.pageIdx]
    exact h.setDirty href 0 written

/-- `blockio_release` of a held page: the invariant, or a page given back with
contents that are on no device. -/
theorem DirtyInv.release (h : DirtyInv L s held mark refs live kind free) (hheld : held page)
    (hrel : blockioRelease L devs page s = some (err, s')) :
    ((BlockCall.release.WriteBackOk L devs s page ∧ ∃ refs' live' free',
        DirtyInv L s' (BlockCall.release.heldAfter L s page held)
          (BlockCall.release.markAfter L devs s page mark) refs' live' kind free') ∨
      (¬ BlockCall.release.WriteBackOk L devs s page ∧
        BlockCall.release.markAfter L devs s page mark page = .pending ∧
        pageIsDirty L s'.kmem page = false)) := by
  obtain ⟨n, p, href, hle, rfl, hp⟩ := h.counted hheld
  have hcount := hp.refcount (by omega)
  cases n with
  | succ n =>
    -- another reference stays
    left
    obtain rfl : n = 0 := by omega
    obtain ⟨k', hk', heq, hinv⟩ := h.block.release devs href
    rw [heq, Option.some.injEq, Prod.mk.injEq] at hrel
    obtain ⟨-, rfl⟩ := hrel
    rw [hp.pageIdx] at hk'
    have hmore : pageGetRefcount L s.kmem (L.pageAddr p) ≠ 1 := by omega
    refine ⟨fun h1 => absurd h1 hmore, Function.update refs (L.pageAddr p) (some 0), live, free, ?_⟩
    rw [markAfter_of_not _ fun hb => by simp [BlockCall.writesBack, hmore] at hb,
      ← Function.update_eq_self (L.pageAddr p) mark]
    have hdirty : pageIsDirty L k' (L.pageAddr p) = pageIsDirty L s.kmem (L.pageAddr p) := by
      rw [pageIsDirty, pageIsDirty, hp.pageIdx, hk', Kmem.modPage_page, Function.update_self,
        PageDesc.dirty_setRefcount]
    have hiff : ∀ page, BlockCall.release.heldAfter L s (L.pageAddr p) held page ↔ held page :=
      fun page => and_iff_left fun _ => hmore
    refine h.step hinv ?_ (fun page _ => hiff page) ?_ ?_ ?_ fun _ => (hiff _).mpr hheld
    · exact fun page hpg => Function.update_of_ne hpg _ _
    · intro q c hqp _
      refine ⟨?_, fun _ _ _ => by rw [hk']; rfl⟩
      rw [hk', Kmem.modPage_page, Function.update_of_ne hqp]
    · rw [hiff, Function.update_self]
      exact ⟨fun _ => by simp, fun _ => hheld⟩
    · intro _
      have hold := h.pages _ hheld
      refine ⟨?_, fun data hm i hi => ?_⟩
      · rw [← hold.dirty_iff, ← hdirty]
      · rw [← hold.saved data hm i hi, hk']
        rfl
  | zero =>
    -- the last reference: write back, then free
    obtain ⟨hinv₁, hsame₁⟩ := h.block.sync devs href
    obtain ⟨k₁, k', live', free', hdec, hfree, hinv', hsame', hgone⟩ := hinv₁.last href
    have hlast : pageGetRefcount L s.kmem (L.pageAddr p) = 1 := hcount
    have hs' : s' = { (blockioSync L devs (L.pageAddr p) s).2 with kmem := k' } := by
      simp only [blockioRelease, hlast, if_true, hdec, Option.bind_eq_bind, Option.bind_some,
        hfree, Option.some.injEq, Prod.mk.injEq] at hrel
      exact hrel.2.symm
    subst hs'
    have hback : BlockCall.release.writesBack L s (L.pageAddr p) = true := by
      simp [BlockCall.writesBack, hlast]
    have hnot : ¬ BlockCall.release.heldAfter L s (L.pageAddr p) held (L.pageAddr p) :=
      fun hh => hh.2 rfl hlast
    have hgive : ∀ m, m ≠ .pending → DirtyInv L
        { (blockioSync L devs (L.pageAddr p) s).2 with kmem := k' }
        (BlockCall.release.heldAfter L s (L.pageAddr p) held)
        (Function.update mark (L.pageAddr p) m) (Function.update refs (L.pageAddr p) none) live'
        kind free' := by
      intro m hm
      refine h.step hinv' ?_ ?_ ?_ ?_ (fun hh => absurd hh hnot) fun he => absurd he hm
      · exact fun page hpg => Function.update_of_ne hpg _ _
      · exact fun page hpg => and_iff_left fun he => absurd he hpg
      · intro q c hqp hc
        have hs₁ := hsame₁ q c hqp hc
        refine hs₁.trans (hsame' q c hqp ⟨hc.page_lt, hc.kind_zero, hc.alive, ?_⟩)
        rw [hs₁.desc, hc.count]
      · rw [Function.update_self]
        exact ⟨fun hh => absurd hh hnot, fun hh => absurd rfl hh⟩
    by_cases hw : wroteBack L devs s (L.pageAddr p) = true
    · left
      rw [markAfter_of _ hback hw]
      exact ⟨fun _ _ => (wroteBack_iff.mp hw).2, _, _, _, hgive _ (by simp)⟩
    · rw [markAfter_of_not _ fun hb => hw hb.2]
      by_cases hdirty : pageIsDirty L s.kmem (L.pageAddr p) = true
      · right
        refine ⟨fun hok => ?_, (h.pages _ hheld).dirty_iff.mp hdirty, hgone⟩
        exact hw (wroteBack_iff.mpr ⟨hdirty, hok hlast hdirty⟩)
      · left
        have hclean : mark (L.pageAddr p) ≠ .pending :=
          fun hm => hdirty ((h.pages _ hheld).dirty_iff.mpr hm)
        have hinv := hgive _ hclean
        rw [Function.update_eq_self] at hinv
        exact ⟨fun _ hd => absurd hd hdirty, _, _, _, hinv⟩

/-! ## Runs -/

/-- A call keeps the invariant exactly when its write-back does not fail. -/
theorem DirtyInv.call (h : DirtyInv L s held mark refs live kind free) (hheld : held page)
    (b : BlockCall) (hexec : b.exec L devs page s = some (err, s')) :
    ((b.WriteBackOk L devs s page ∧ ∃ refs' live' free',
        DirtyInv L s' (b.heldAfter L s page held) (b.markAfter L devs s page mark) refs' live'
          kind free') ∨
      (¬ b.WriteBackOk L devs s page ∧ b.markAfter L devs s page mark page = .pending ∧
        pageIsDirty L s'.kmem page = false)) := by
  cases b with
  | sync =>
    rw [BlockCall.exec, Option.some.injEq] at hexec
    have hs' : s' = (blockioSync L devs page s).2 := by rw [hexec]
    subst hs'
    exact (h.sync devs hheld).imp_left fun ⟨hok, hinv⟩ => ⟨hok, refs, live, free, hinv⟩
  | release => exact h.release hheld hexec

theorem DirtyRun.inv (h : DirtyRun L s₀ (BlockCall.WriteBackOk L) s held mark) :
    ∃ refs live kind free, DirtyInv L s held mark refs live kind free := by
  induction h with
  | start hrun =>
    obtain ⟨kind, free, hinv⟩ := hrun.inv
    refine ⟨fun _ => none, _, kind, free, ⟨hinv, fun _ _ hn => absurd hn (by simp)⟩, ?_, ?_, ?_⟩
    · simp
    · exact fun _ hf => absurd hf id
    · exact fun _ hm => absurd hm (by simp)
  | get _ hget hne ih =>
    obtain ⟨refs, live, kind, free, hinv⟩ := ih
    obtain ⟨refs', live', free', ⟨h0, -⟩ | ⟨-, hinv'⟩⟩ := hinv.get hget
    · exact absurd h0 hne
    · exact ⟨refs', live', kind, free', hinv'⟩
  | getFails _ hget ih =>
    obtain ⟨refs, live, kind, free, hinv⟩ := ih
    obtain ⟨refs', live', free', ⟨-, hinv'⟩ | ⟨h0, -⟩⟩ := hinv.get hget
    · exact ⟨refs', live', kind, free', hinv'⟩
    · exact absurd rfl h0
  | modify _ hheld ih =>
    obtain ⟨refs, live, kind, free, hinv⟩ := ih
    exact ⟨refs, live, kind, free, hinv.modify hheld _⟩
  | call b _ hheld hok hexec ih =>
    obtain ⟨refs, live, kind, free, hinv⟩ := ih
    rcases hinv.call hheld b hexec with ⟨-, refs', live', free', hinv'⟩ | ⟨hnok, -⟩
    · exact ⟨refs', live', kind, free', hinv'⟩
    · exact absurd hok hnok

/-- In every run whose write-backs of dirty pages do not fail, no dirty block is
lost; and the next call keeps it so exactly when its write-back does not fail. -/
theorem dirtyRun_kept (h : DirtyRun L s₀ (BlockCall.WriteBackOk L) s held mark) :
    NoDirtyLost L s held mark ∧ SyncReports L s ∧
    ∀ (b : BlockCall) (devs : Nat → Option BlockDev) page err s', held page →
      b.exec L devs page s = some (err, s') →
      (NoDirtyLost L s' (b.heldAfter L s page held) (b.markAfter L devs s page mark) ↔
        b.WriteBackOk L devs s page) := by
  obtain ⟨refs, live, kind, free, hinv⟩ := h.inv
  refine ⟨hinv.kept, syncReports L s, ?_⟩
  intro b devs page err s' hheld hexec
  rcases hinv.call hheld b hexec with ⟨hok, _, _, _, hinv'⟩ | ⟨hnok, hpend, hclean⟩
  · exact ⟨fun _ => hok, fun _ => hinv'.kept⟩
  · refine ⟨fun hkept => ?_, fun hok => absurd hok hnok⟩
    have hdirty := (hkept.pending page hpend).2.1
    rw [hclean] at hdirty
    exact absurd hdirty (by decide)

end

/-! ## A device that fails -/

/-- A device that reads and refuses every write with `-EIO`. -/
def failingDevs : Nat → Option BlockDev := fun _ =>
  some ⟨some fun lba => (0, fun _ => BitVec.ofNat 8 lba), some fun _ _ => -eio⟩

/-- The only page of the heap is obtained and changed. -/
theorem dirtyRun_changed : ∃ s, ∀ ok, DirtyRun onePage usedMem ok s (fun p => p = 4096 ∨ False)
    (Function.update (Function.update (fun _ => .clean) 4096 .clean) 4096 .pending) := by
  obtain ⟨⟨page, s₁⟩, hget⟩ := Option.isSome_iff_exists.mp
    (show (blockioGet onePage okDevs 0 0 ⟨kmemkernelInit onePage usedMem, []⟩).isSome by
      decide +kernel)
  have hpage : (blockioGet onePage okDevs 0 0 ⟨kmemkernelInit onePage usedMem, []⟩).map
      Prod.fst = some 4096 := by
    decide +kernel
  rw [hget, Option.map_some, Option.some.injEq] at hpage
  obtain rfl : page = 4096 := hpage
  refine ⟨{ s₁ with kmem := pageSetDirty onePage (loadPage s₁.kmem 4096 fun _ => 1) 4096 }, ?_⟩
  intro ok
  have hstart : DirtyRun onePage usedMem ok ⟨kmemkernelInit onePage usedMem, []⟩ (fun _ => False)
      fun _ => .clean := .start .init
  exact (hstart.get hget (by decide)).modify (.inl rfl)

/-- The page of the changed block is kept, and a write that succeeds keeps it so. -/
theorem dirtyRun_kept_onePage :
    ∃ s held mark, NoDirtyLost onePage s held mark ∧ mark 4096 = .pending ∧
      BlockCall.sync.WriteBackOk onePage okDevs s 4096 := by
  obtain ⟨s, hrun⟩ := dirtyRun_changed
  obtain ⟨hkept, -, -⟩ := dirtyRun_kept (hrun _)
  refine ⟨s, _, _, hkept, Function.update_self .., ?_⟩
  rintro - err herr
  exact (Option.some.inj herr).symm

/-- A write that fails clears the mark: the change of the page is on no device and
the page is not dirty. -/
theorem blockio_sync_loses_mark :
    ¬ ∀ (s : Io) (held : Nat → Prop) (mark : Nat → Mark),
      DirtyRun onePage usedMem (fun _ _ _ _ => True) s held mark →
      NoDirtyLost onePage s held mark := by
  intro hall
  obtain ⟨s, hrun⟩ := dirtyRun_changed
  obtain ⟨refs, live, kind, free, hinv⟩ := (hrun _).inv
  have hheld : 4096 = 4096 ∨ False := .inl rfl
  have hdirty : pageIsDirty onePage s.kmem 4096 = true :=
    (hinv.pages _ hheld).dirty_iff.mpr (Function.update_self ..)
  have hfail : ¬ BlockCall.sync.WriteBackOk onePage failingDevs s 4096 :=
    fun hok => absurd (hok hdirty (-eio) rfl) (by decide)
  rcases hinv.sync failingDevs hheld with ⟨hok, -⟩ | ⟨-, hpend, hclean⟩
  · exact hfail hok
  · have hexec : BlockCall.sync.exec onePage failingDevs 4096 s
        = some ((blockioSync onePage failingDevs 4096 s).1,
          (blockioSync onePage failingDevs 4096 s).2) := rfl
    have hkept := hall _ _ _ ((hrun _).call .sync hheld trivial hexec)
    have hstill := (hkept.pending 4096 hpend).2.1
    rw [hclean] at hstill
    exact absurd hstill (by decide)

end Ko6.Kernel
