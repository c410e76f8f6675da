import Ko6.Kernel.SlabRuns

set_option autoImplicit false

/-!
# Kernel: block pages and their reference count

`blockio_get` reads a block of a device into a fresh page and `blockio_release`
gives it up.  The number of references is kept in the descriptor of the page, in
`block.refcount`, which are the same eight bits as `slab.nbused`: `kmalloc` has
already counted the page as one used object when `blockio_get` increments the
count.  The count of a page just obtained is therefore 2, one release brings it
down to 1, and the branch that frees the page at 0 is never reached.

`blockRun_count` says what the count is in every run, and
`blockRun_lawful_iff` that the law of reference counting holds in a state
exactly when no page has been obtained before it.
-/

namespace Ko6.Kernel

open Ko6.Lib Ko6.Common

/-! ## Model -/

/-- What the driver of a block device does: the status of a read with the bytes
it puts in the buffer, and the status of a write.  `none` for an operation the
driver does not have. -/
structure BlockDev where
  read : Option (Nat → Int × (Nat → BitVec 8))
  write : Option (Nat → (Nat → BitVec 8) → Int)

/-- A block written to a device: `bdev`, `lba` and the contents. -/
structure Written where
  bdev : Nat
  lba : Nat
  data : Nat → BitVec 8

/-- The kernel memory and the blocks written so far. -/
structure Io where
  kmem : Kmem
  written : List Written

/-- `EINVAL` and `EIO`. -/
def einval : Int := 7
def eio : Int := 23

section
variable (L : Layout) (devs : Nat → Option BlockDev)

/-- The contents of a page. -/
def pageData (s : Kmem) (page : Nat) : Nat → BitVec 8 := fun i => s.mem (page + i)

/-- A page filled by a device. -/
def loadPage (s : Kmem) (page : Nat) (data : Nat → BitVec 8) : Kmem :=
  { s with mem := fun b =>
      if page ≤ b ∧ b < page + pageSize then data (b - page) else s.mem b }

/-- `blockio_get`.  A panic is `none`, the `NULL` page the address 0. -/
def blockioGet (bdev lba : Nat) (s : Io) : Option (Nat × Io) :=
  match (devs bdev).bind BlockDev.read with
  | none => some (0, s)
  | some read => do
    let (page, k) ← kmalloc L pageSize s.kmem
    if page = 0 then some (0, { s with kmem := k })
    else
      let k := pageSetLba L k page bdev lba
      let k := pageSetBlock L k page
      let (_, k) ← pageIncRefcount L k page
      let k := pageSetValid L k page
      let k := loadPage k page (read lba).2
      if (read lba).1 ≠ 0 then do
        let k ← kfree L page k
        some (0, { s with kmem := k })
      else some (page, { s with kmem := k })

/-- `blockio_sync`. -/
def blockioSync (page : Nat) (s : Io) : Int × Io :=
  if page = 0 then (-einval, s)
  else if !pageIsDirty L s.kmem page then (0, s)
  else
    let (bdev, lba) := pageGetLba L s.kmem page
    match (devs bdev).bind BlockDev.write with
    | none => (-eio, s)
    | some write =>
      let data := pageData s.kmem page
      (write lba data,
        { kmem := pageClrDirty L s.kmem page, written := s.written ++ [⟨bdev, lba, data⟩] })

/-- `blockio_release`. -/
def blockioRelease (page : Nat) (s : Io) : Option (Int × Io) := do
  let (err, s) :=
    if pageGetRefcount L s.kmem page = 1 then blockioSync L devs page s else (0, s)
  let (count, k) ← pageDecRefcount L s.kmem page
  if count = 0 then do
    let k ← kfree L page k
    some (err, { s with kmem := k })
  else some (err, { s with kmem := k })

end

/-! ## Runs and the law of reference counting -/

/-- The pages obtained by `blockio_get`, with the number of references not yet
released. -/
abbrev Refs : Type := Nat → Option Nat

/-- The states reached from a state of the allocator by `blockio_get` with reads
that succeed, `blockio_release` of references that are held, and changes of a
page by a holder, who marks it dirty. -/
inductive BlockRun (L : Layout) (devs : Nat → Option BlockDev) (s₀ : Kmem) :
    Io → Refs → Prop where
  | start {s : Kmem} {live : Live} : SlabRun L s₀ s live →
      BlockRun L devs s₀ ⟨s, []⟩ fun _ => none
  | get {s s' : Io} {refs : Refs} {bdev lba page : Nat} {read : Nat → Int × (Nat → BitVec 8)} :
      BlockRun L devs s₀ s refs → (devs bdev).bind BlockDev.read = some read →
      (read lba).1 = 0 → blockioGet L devs bdev lba s = some (page, s') →
      BlockRun L devs s₀ s' (Function.update refs page (some ((refs page).getD 0 + 1)))
  | release {s s' : Io} {refs : Refs} {page n : Nat} {err : Int} :
      BlockRun L devs s₀ s refs → refs page = some (n + 1) →
      blockioRelease L devs page s = some (err, s') →
      BlockRun L devs s₀ s' (Function.update refs page (some n))
  | modify {s : Io} {refs : Refs} {page n : Nat} {data : Nat → BitVec 8} :
      BlockRun L devs s₀ s refs → refs page = some (n + 1) →
      BlockRun L devs s₀
        { s with kmem := pageSetDirty L (loadPage s.kmem page data) page } refs

/-- A page is one of the free pages. -/
def InFreeList (L : Layout) (s : Kmem) (page : Nat) : Prop :=
  ∃ pages, Rep (cells L) s (L.slab 0) pages ∧ page ∈ pages

/-- The law: the count is the number of references held, the release of the last
one writes a dirty page back and frees it, and a page without references is
free. -/
structure RefcountLaw (L : Layout) (devs : Nat → Option BlockDev) (s : Io) (refs : Refs) :
    Prop where
  count : ∀ page n, refs page = some (n + 1) → pageGetRefcount L s.kmem page = n + 1
  last : ∀ page, refs page = some 1 → ∃ err s', blockioRelease L devs page s = some (err, s') ∧
    (pageIsDirty L s.kmem page = true → s'.written = s.written ++
      [⟨(pageGetLba L s.kmem page).1, (pageGetLba L s.kmem page).2, pageData s.kmem page⟩]) ∧
    InFreeList L s'.kmem page
  free : ∀ page, refs page = some 0 → InFreeList L s.kmem page

/-! ## The count along a run -/

namespace PageDesc

variable (d : PageDesc)

@[simp] theorem refcount_eq_nbused : d.refcount = d.nbused := rfl

@[simp] theorem setRefcount_eq_setNbused (v : BitVec 8) : d.setRefcount v = d.setNbused v := rfl

/-- The fields of the block view that overlap neither `type`, `lines` nor the
counter. -/
theorem block_fields (v : BitVec 4) (w : BitVec 32) (b : BitVec 1) :
    ((d.setBdev v).type = d.type ∧ (d.setBdev v).lines = d.lines ∧
      (d.setBdev v).nbused = d.nbused) ∧
    ((d.setLba w).type = d.type ∧ (d.setLba w).lines = d.lines ∧
      (d.setLba w).nbused = d.nbused) ∧
    ((d.setValid b).type = d.type ∧ (d.setValid b).lines = d.lines ∧
      (d.setValid b).nbused = d.nbused) ∧
    ((d.setDirty b).type = d.type ∧ (d.setDirty b).lines = d.lines ∧
      (d.setDirty b).nbused = d.nbused) := by
  refine ⟨⟨?_, ?_, ?_⟩, ⟨?_, ?_, ?_⟩, ⟨?_, ?_, ?_⟩, ⟨?_, ?_, ?_⟩⟩ <;>
    exact extract_setField_of_disjoint (by decide)

theorem dirty_setDirty (b : BitVec 1) : (d.setDirty b).dirty = b := extract_setField (by decide)

theorem dirty_setRefcount (c : BitVec 8) : (d.setRefcount c).dirty = d.dirty :=
  extract_setField_of_disjoint (by decide)

/-- `blockio_get` does not touch `dirty`. -/
theorem dirty_block (v : BitVec 4) (w : BitVec 32) (c : BitVec 8) (b : BitVec 1) :
    (((((d.setBdev v).setLba w).setType .block).setRefcount c).setValid b).dirty = d.dirty := by
  unfold setValid setRefcount setType setLba setBdev dirty
  rw [extract_setField_of_disjoint (by decide), extract_setField_of_disjoint (by decide),
    extract_setField_of_disjoint (by decide), extract_setField_of_disjoint (by decide),
    extract_setField_of_disjoint (by decide)]

end PageDesc

section
variable {L : Layout} {devs : Nat → Option BlockDev} {s₀ k : Kmem} {s : Io} {refs : Refs}
  {live : Live} {kind : Kinds} {free : Nat → List Nat} {p q page c n : Nat}
  {f : PageDesc → PageDesc}

/-- Page `p` is given out whole and its counter is `c`. -/
structure Counted (L : Layout) (k : Kmem) (live : Live) (kind : Kinds) (p c : Nat) : Prop where
  page_lt : p < L.nbPages
  kind_zero : kind p = 0
  alive : live (L.pageAddr p) ≠ none
  count : (k.page p).nbused = BitVec.ofNat 8 c

theorem Counted.pageIdx (h : Counted L k live kind p c) : L.pageIdx (L.pageAddr p) = p :=
  (piece_of_page h.page_lt h.kind_zero).pageIdx

theorem Counted.refcount (h : Counted L k live kind p c) (hc : c < 256) :
    pageGetRefcount L k (L.pageAddr p) = c := by
  rw [pageGetRefcount, h.pageIdx, PageDesc.refcount_eq_nbused, h.count, BitVec.toNat_ofNat]
  exact Nat.mod_eq_of_lt hc

/-- An assignment to the descriptor of such a page. -/
theorem Counted.modPage (h : Counted L k live kind p c)
    (hf : (f (k.page p)).nbused = BitVec.ofNat 8 n) :
    Counted L (k.modPage p f) live kind p n := by
  refine ⟨h.page_lt, h.kind_zero, h.alive, ?_⟩
  rw [Kmem.modPage_page, Function.update_self, hf]

theorem Counted.modPage_other (h : Counted L k live kind q c) (hqp : q ≠ p) :
    Counted L (k.modPage p f) live kind q c := by
  refine ⟨h.page_lt, h.kind_zero, h.alive, ?_⟩
  rw [Kmem.modPage_page, Function.update_of_ne hqp, h.count]

theorem Inv.modPage (h : Inv L k live kind free) (hp : Counted L k live kind p c)
    (htype : (f (k.page p)).type ≠ PageType.free.toBits)
    (hlines : (f (k.page p)).lines = (k.page p).lines) :
    Inv L (k.modPage p f) live kind free := by
  refine ⟨h.congr_mem fun _ _ _ _ _ _ _ => rfl, ?_⟩
  intro q hq
  rw [Kmem.modPage_page]
  by_cases hqp : q = p
  · subst hqp
    have hdesc := h.described q hq
    rw [Described, if_neg fun hc => hp.alive hc.2] at hdesc
    rw [Function.update_self, Described, if_neg fun hc => hp.alive hc.2]
    refine ⟨htype, hlines.trans hdesc.2.1, fun h0 => absurd hp.kind_zero h0⟩
  · rw [Function.update_of_ne hqp]
    exact h.described q hq

/-- A page loaded by a device or changed by its holder. -/
theorem Inv.loadPage (h : Inv L k live kind free) (hp : Counted L k live kind p c)
    (data : Nat → BitVec 8) : Inv L (loadPage k (L.pageAddr p) data) live kind free := by
  refine h.write ?_ rfl
  intro b hne
  have hin : L.pageAddr p ≤ b ∧ b < L.pageAddr p + pageSize := by
    by_contra hout
    exact hne (if_neg hout)
  refine ⟨_, p, 0, piece_of_page hp.page_lt hp.kind_zero, hp.alive, hin.1, ?_⟩
  rw [hp.kind_zero, Layout.objSize, if_pos rfl]
  exact hin.2

theorem Inv.type_ne_free (h : Inv L k live kind free) (hp : Counted L k live kind p c) :
    (k.page p).type ≠ PageType.free.toBits :=
  (h.described_live (piece_of_page hp.page_lt hp.kind_zero) hp.alive).1

/-- The invariant of a run: the count of an obtained page is one more than the
number of references held on it, which is at most one. -/
structure BlockInv (L : Layout) (s : Io) (refs : Refs) (live : Live) (kind : Kinds)
    (free : Nat → List Nat) : Prop extends Inv L s.kmem live kind free where
  held : ∀ page n, refs page = some n →
    n ≤ 1 ∧ ∃ p, page = L.pageAddr p ∧ Counted L s.kmem live kind p (n + 1)

theorem pageAddr_inj (h : L.pageAddr p = L.pageAddr q) : p = q := by
  simp only [Layout.pageAddr, pageSize] at h
  omega

theorem pageAddr_apart (h : q ≠ p) :
    L.pageAddr q + pageSize ≤ L.pageAddr p ∨ L.pageAddr p + pageSize ≤ L.pageAddr q := by
  simp only [Layout.pageAddr, pageSize]
  omega

theorem pageAddr_ne_zero : L.pageAddr p ≠ 0 := by
  have hs := L.slab_le
  simp only [Layout.pageAddr]
  omega

theorem Counted.not_inFreeList (hp : Counted L k live kind p c) (h : Inv L k live kind free) :
    ¬ InFreeList L k (L.pageAddr p) := by
  rintro ⟨pages, hrep, hmem⟩
  rw [hrep.unique (h.rep 0 L.maxLineSlab_pos)] at hmem
  obtain ⟨q, j, -, -, hdead⟩ := (h.mem_free 0 L.maxLineSlab_pos _).mp hmem
  exact hp.alive hdead

/-- The descriptor and the bytes of page `p` are the same in two states. -/
structure SamePage (L : Layout) (k k' : Kmem) (p : Nat) : Prop where
  desc : k'.page p = k.page p
  bytes : ∀ b, L.pageAddr p ≤ b → b < L.pageAddr p + pageSize → k'.mem b = k.mem b

theorem SamePage.trans {k₁ k₂ k₃ : Kmem} (h : SamePage L k₁ k₂ p) (h' : SamePage L k₂ k₃ p) :
    SamePage L k₁ k₃ p where
  desc := h'.desc.trans h.desc
  bytes b hlo hhi := (h'.bytes b hlo hhi).trans (h.bytes b hlo hhi)

/-- A page given out whole is left alone by what touches no live byte and not its
descriptor. -/
theorem Counted.same {k' : Kmem} (h : Counted L k live kind p c) (hpage : k'.page p = k.page p)
    (hmem : ∀ b, Owned L live kind b → k'.mem b = k.mem b) : SamePage L k k' p where
  desc := hpage
  bytes b hlo hhi := by
    refine hmem b ⟨_, p, 0, piece_of_page h.page_lt h.kind_zero, h.alive, hlo, ?_⟩
    rwa [h.kind_zero, Layout.objSize, if_pos rfl]

/-- The steps of `blockio_get` on the page it got from `kmalloc`. -/
theorem blockGet_page (bdev lba : Nat) (data : Nat → BitVec 8) (hinv : Inv L k live kind free)
    (hp : Counted L k live kind p 1) :
    ∃ k₁ k', pageSetBlock L (pageSetLba L k (L.pageAddr p) bdev lba) (L.pageAddr p) = k₁ ∧
      ∃ k₂, pageIncRefcount L k₁ (L.pageAddr p) = some (2, k₂) ∧
      loadPage (pageSetValid L k₂ (L.pageAddr p)) (L.pageAddr p) data = k' ∧
      Inv L k' live kind free ∧ Counted L k' live kind p 2 ∧
      (k'.page p).dirty = (k.page p).dirty ∧ ∀ q, q ≠ p → SamePage L k k' q := by
  have hidx := hp.pageIdx
  simp only [pageSetBlock, pageSetLba, pageSetValid, hidx]
  -- the block fields
  obtain ⟨⟨htb, hlb, hnb⟩, -⟩ := (k.page p).block_fields (BitVec.ofNat 4 bdev) 0 0
  have hinv₁ := hinv.modPage hp (f := (·.setBdev (BitVec.ofNat 4 bdev)))
    (by rw [htb]; exact hinv.type_ne_free hp) hlb
  have hp₁ := hp.modPage (f := (·.setBdev (BitVec.ofNat 4 bdev))) (hnb.trans hp.count)
  obtain ⟨-, ⟨htl, hll, hnl⟩, -⟩ := ((k.modPage p (·.setBdev (BitVec.ofNat 4 bdev))).page
    p).block_fields 0 (BitVec.ofNat 32 lba) 0
  have hinv₂ := hinv₁.modPage hp₁ (f := (·.setLba (BitVec.ofNat 32 lba)))
    (by rw [htl]; exact hinv₁.type_ne_free hp₁) hll
  have hp₂ := hp₁.modPage (f := (·.setLba (BitVec.ofNat 32 lba))) (hnl.trans hp₁.count)
  have hinv₃ := hinv₂.modPage hp₂ (f := (·.setType .block))
    (by simp [PageType.toBits]) (PageDesc.lines_setType _ _)
  have hp₃ := hp₂.modPage (f := (·.setType .block))
    ((PageDesc.nbused_setType _ _).trans hp₂.count)
  -- the increment
  have hcount := hp₃.refcount (by decide)
  have hinv₄ := hinv₃.modPage hp₃ (f := (·.setRefcount (BitVec.ofNat 8 2)))
    (by simpa using hinv₃.type_ne_free hp₃) (by simp)
  have hp₄ := hp₃.modPage (f := (·.setRefcount (BitVec.ofNat 8 2))) (n := 2) (by simp)
  obtain ⟨k₂, hk₂⟩ : ∃ k₂, k₂ = ((((k.modPage p (·.setBdev (BitVec.ofNat 4 bdev))).modPage p
    (·.setLba (BitVec.ofNat 32 lba))).modPage p (·.setType .block)).modPage p
    (·.setRefcount (BitVec.ofNat 8 2))) := ⟨_, rfl⟩
  rw [← hk₂] at hinv₄ hp₄
  obtain ⟨-, -, ⟨htv, hlv, hnv⟩, -⟩ := (k₂.page p).block_fields 0 0 1
  have hinv₅ := hinv₄.modPage hp₄ (f := (·.setValid 1))
    (by rw [htv]; exact hinv₄.type_ne_free hp₄) hlv
  have hp₅ := hp₄.modPage (f := (·.setValid 1)) (hnv.trans hp₄.count)
  refine ⟨_, _, rfl, k₂, ?_, rfl, hinv₅.loadPage hp₅ data,
    ⟨hp₅.page_lt, hp₅.kind_zero, hp₅.alive, hp₅.count⟩, ?_, ?_⟩
  · rw [pageIncRefcount, hcount, hidx, hk₂]
    rfl
  · simp only [loadPage, hk₂, Kmem.modPage_page, Function.update_self, PageDesc.dirty_block]
  · intro q hqp
    constructor
    · simp only [loadPage, hk₂, Kmem.modPage_page, Function.update_of_ne hqp]
    · intro b hlo hhi
      have hout := pageAddr_apart (L := L) hqp
      simp only [loadPage, hk₂, Kmem.modPage_mem]
      rw [if_neg (by omega)]

/-- `blockio_get`: nothing, or a new page that is counted twice and not dirty.  The
pages given out before are left alone. -/
theorem BlockInv.get {s' : Io} {bdev lba : Nat} (h : BlockInv L s refs live kind free)
    (hget : blockioGet L devs bdev lba s = some (page, s')) :
    ∃ refs' live' free', BlockInv L s' refs' live' kind free' ∧ s'.written = s.written ∧
      (∀ q c, Counted L s.kmem live kind q c → SamePage L s.kmem s'.kmem q) ∧
      ((page = 0 ∧ refs' = refs ∧
          ∀ read, (devs bdev).bind BlockDev.read = some read → (read lba).1 ≠ 0) ∨
        page ≠ 0 ∧ refs page = none ∧ refs' = Function.update refs page (some 1) ∧
          pageIsDirty L s'.kmem page = false) := by
  cases hdev : (devs bdev).bind BlockDev.read with
  | none =>
    simp only [blockioGet, hdev, Option.some.injEq, Prod.mk.injEq] at hget
    obtain ⟨rfl, rfl⟩ := hget
    exact ⟨refs, live, free, h, rfl, fun q c _ => ⟨rfl, fun _ _ _ => rfl⟩,
      .inl ⟨rfl, rfl, fun read hr => by simp at hr⟩⟩
  | some read =>
    rcases h.toInv.kmalloc_page with
      ⟨-, hnone⟩ | ⟨p, k₁, rest, hp, hkind, hdead, hk, hinv, hpage, hmem⟩
    · simp [blockioGet, hdev, hnone] at hget
    have hp₁ : Counted L k₁ (Function.update live (L.pageAddr p) (some pageSize)) kind p 1 := by
      refine ⟨hp, hkind, by simp, ?_⟩
      rw [hpage, Function.update_self]
      decide
    obtain ⟨k₂, k₄, h₂, k₃, h₃, h₄, hinv₄, hp₄, hdirty, hother⟩ :=
      blockGet_page bdev lba (read lba).2 hinv hp₁
    have hne : ∀ q c, Counted L s.kmem live kind q c → q ≠ p := by
      rintro q c hq rfl
      exact hq.alive hdead
    have hsame : ∀ q c, Counted L s.kmem live kind q c → SamePage L s.kmem k₄ q := by
      intro q c hq
      have hqp := hne q c hq
      refine (hq.same ?_ hmem).trans (hother q hqp)
      rw [hpage, Function.update_of_ne hqp]
    simp only [blockioGet, hdev, hk, Option.bind_eq_bind, Option.bind_some, h₂, h₃, h₄,
      pageAddr_ne_zero, if_false] at hget
    by_cases hread : (read lba).1 = 0
    · -- the block is read
      simp only [hread, ne_eq, not_true_eq_false, if_false, Option.some.injEq,
        Prod.mk.injEq] at hget
      obtain ⟨rfl, rfl⟩ := hget
      have hfresh : refs (L.pageAddr p) = none := by
        by_contra hsome
        obtain ⟨n, hn⟩ := Option.ne_none_iff_exists'.mp hsome
        obtain ⟨-, q, hq, hq'⟩ := h.held _ n hn
        exact hne q _ hq' (pageAddr_inj hq.symm)
      refine ⟨_, _, _, ⟨hinv₄, ?_⟩, rfl, hsame, .inr ⟨pageAddr_ne_zero, hfresh, rfl, ?_⟩⟩
      · intro page n hn
        by_cases hpg : page = L.pageAddr p
        · subst hpg
          rw [Function.update_self, Option.some.injEq] at hn
          subst hn
          exact ⟨Nat.le_refl _, p, rfl, hp₄⟩
        · rw [Function.update_of_ne hpg] at hn
          obtain ⟨hle, q, rfl, hq⟩ := h.held page n hn
          refine ⟨hle, q, rfl, hq.page_lt, hq.kind_zero, ?_, ?_⟩
          · rw [Function.update_of_ne hpg]
            exact hq.alive
          · rw [(hsame q _ hq).desc, hq.count]
      · simp only [pageIsDirty, hp₄.pageIdx, hdirty, hpage, Function.update_self]
        decide
    · -- the read fails: the page is given back
      obtain ⟨k₅, free', h₅, hinv₅, hpage₅, -, hmem₅⟩ := hinv₄.kfree_page hp hkind (by simp)
      have hback : Function.update (Function.update live (L.pageAddr p) (some pageSize))
          (L.pageAddr p) none = live := by
        rw [Function.update_idem, ← hdead, Function.update_eq_self]
      rw [hback] at hinv₅ hmem₅
      simp only [ne_eq, hread, not_false_eq_true, if_true, h₅, Option.bind_some,
        Option.some.injEq, Prod.mk.injEq] at hget
      obtain ⟨rfl, rfl⟩ := hget
      have hsame' : ∀ q c, Counted L s.kmem live kind q c → SamePage L s.kmem k₅ q := by
        intro q c hq
        have hdesc := (hsame q c hq).desc
        have hq' : Counted L k₄ live kind q c :=
          ⟨hq.page_lt, hq.kind_zero, hq.alive, by rw [hdesc, hq.count]⟩
        refine (hsame q c hq).trans (hq'.same ?_ hmem₅)
        rw [hpage₅, Function.update_of_ne (hne q c hq)]
      refine ⟨refs, live, free', ⟨hinv₅, ?_⟩, rfl, hsame', .inl ⟨rfl, rfl, ?_⟩⟩
      · intro page n hn
        obtain ⟨hle, q, rfl, hq⟩ := h.held page n hn
        exact ⟨hle, q, rfl, hq.page_lt, hq.kind_zero, hq.alive,
          by rw [(hsame' q _ hq).desc, hq.count]⟩
      · intro read' hr
        rw [Option.some.injEq] at hr
        exact hr ▸ hread

/-- The other obtained pages after an assignment to the descriptor of one. -/
theorem BlockInv.held_modPage (h : BlockInv L s refs live kind free)
    (hp : Counted L s.kmem live kind p c) {k' : Kmem} {refs' : Refs}
    (hpage : k'.page = (s.kmem.modPage p f).page)
    (hf : (f (s.kmem.page p)).nbused = BitVec.ofNat 8 (n + 1)) (hn : n ≤ 1)
    (hrefs : refs' = Function.update refs (L.pageAddr p) (some n)) :
    ∀ page m, refs' page = some m →
      m ≤ 1 ∧ ∃ q, page = L.pageAddr q ∧ Counted L k' live kind q (m + 1) := by
  subst hrefs
  intro page m hm
  by_cases hpg : page = L.pageAddr p
  · subst hpg
    rw [Function.update_self, Option.some.injEq] at hm
    subst hm
    have hp' := hp.modPage hf
    exact ⟨hn, p, rfl, hp'.page_lt, hp'.kind_zero, hp'.alive, by rw [hpage]; exact hp'.count⟩
  · rw [Function.update_of_ne hpg] at hm
    obtain ⟨hle, q, rfl, hq⟩ := h.held page m hm
    have hq' := hq.modPage_other (p := p) (f := f) fun he => hpg (by rw [he])
    exact ⟨hle, q, rfl, hq'.page_lt, hq'.kind_zero, hq'.alive, by rw [hpage]; exact hq'.count⟩

/-- `blockio_release` of the one reference: the count goes from 2 to 1, and the
page is neither written back nor freed. -/
theorem BlockInv.release (devs : Nat → Option BlockDev) (h : BlockInv L s refs live kind free)
    (href : refs page = some (n + 1)) :
    ∃ k', k' = s.kmem.modPage (L.pageIdx page) (·.setRefcount (BitVec.ofNat 8 1)) ∧
      blockioRelease L devs page s = some (0, { s with kmem := k' }) ∧
      BlockInv L { s with kmem := k' } (Function.update refs page (some n)) live kind free := by
  obtain ⟨hle, p, rfl, hp⟩ := h.held page _ href
  obtain rfl : n = 0 := by omega
  have hcount := hp.refcount (by decide)
  have hinv := h.toInv.modPage hp (f := (·.setRefcount (BitVec.ofNat 8 1)))
    (by simpa using h.toInv.type_ne_free hp) (by simp)
  rw [hp.pageIdx]
  refine ⟨_, rfl, ?_, hinv, ?_⟩
  · simp only [blockioRelease, hcount, Nat.reduceAdd, Nat.reduceEqDiff, if_false,
      pageDecRefcount, hp.pageIdx]
    rfl
  · exact h.held_modPage hp (f := (·.setRefcount (BitVec.ofNat 8 1))) rfl (by simp)
      (Nat.zero_le _) rfl

/-- An assignment to `dirty`. -/
theorem BlockInv.setDirty (h : BlockInv L s refs live kind free)
    (href : refs (L.pageAddr p) = some n) (v : BitVec 1) (written : List Written) :
    BlockInv L ⟨s.kmem.modPage p (·.setDirty v), written⟩ refs live kind free := by
  obtain ⟨hle, q, hq, hp⟩ := h.held _ _ href
  obtain rfl := pageAddr_inj hq
  obtain ⟨-, -, -, htd, hld, hnd⟩ := (s.kmem.page p).block_fields 0 0 v
  have hinv := h.toInv.modPage hp (f := (·.setDirty v))
    (fun he => h.toInv.type_ne_free hp (htd.symm.trans he)) hld
  refine ⟨hinv, ?_⟩
  exact h.held_modPage hp (f := (·.setDirty v)) rfl (hnd.trans hp.count) hle
    (by rw [← href, Function.update_eq_self])

/-- A holder changes the page. -/
theorem BlockInv.modify (h : BlockInv L s refs live kind free) (href : refs page = some n)
    (data : Nat → BitVec 8) :
    BlockInv L { s with kmem := pageSetDirty L (loadPage s.kmem page data) page } refs live kind
      free := by
  obtain ⟨hle, p, rfl, hp⟩ := h.held page _ href
  have hload : BlockInv L { s with kmem := loadPage s.kmem (L.pageAddr p) data } refs live kind
      free := by
    refine ⟨h.toInv.loadPage hp data, fun page m hm => ?_⟩
    obtain ⟨hle, q, rfl, hq⟩ := h.held page m hm
    exact ⟨hle, q, rfl, hq.page_lt, hq.kind_zero, hq.alive, hq.count⟩
  simp only [pageSetDirty, hp.pageIdx]
  exact hload.setDirty href 1 s.written

theorem blockRun_inv (h : BlockRun L devs s₀ s refs) :
    ∃ live kind free, BlockInv L s refs live kind free := by
  induction h with
  | start hrun =>
    obtain ⟨kind, free, hinv⟩ := hrun.inv
    exact ⟨_, kind, free, hinv, fun _ _ hn => absurd hn (by simp)⟩
  | get _ hdev hread hget ih =>
    obtain ⟨live, kind, free, hinv⟩ := ih
    obtain ⟨refs', live', free', hinv', -, -, ⟨-, -, hfail⟩ | ⟨-, hfresh, rfl, -⟩⟩ :=
      hinv.get hget
    · exact absurd hread (hfail _ hdev)
    · rw [hfresh]
      exact ⟨live', kind, free', hinv'⟩
  | release _ href hrel ih =>
    obtain ⟨live, kind, free, hinv⟩ := ih
    obtain ⟨k', -, heq, hinv'⟩ := hinv.release devs href
    rw [heq, Option.some.injEq, Prod.mk.injEq] at hrel
    exact ⟨live, kind, free, hrel.2 ▸ hinv'⟩
  | modify _ href ih =>
    obtain ⟨live, kind, free, hinv⟩ := ih
    exact ⟨live, kind, free, hinv.modify href _⟩

/-- In every run the count of an obtained page is one above the references held,
and the page never comes back to the free pages. -/
theorem blockRun_count (h : BlockRun L devs s₀ s refs) (href : refs page = some n) :
    pageGetRefcount L s.kmem page = n + 1 ∧ ¬ InFreeList L s.kmem page := by
  obtain ⟨live, kind, free, hinv⟩ := blockRun_inv h
  obtain ⟨hle, p, rfl, hp⟩ := hinv.held page n href
  exact ⟨hp.refcount (by omega), hp.not_inFreeList hinv.toInv⟩

/-- The law holds in a state of a run exactly when no page has been obtained. -/
theorem blockRun_lawful_iff (h : BlockRun L devs s₀ s refs) :
    RefcountLaw L devs s refs ↔ ∀ page, refs page = none := by
  constructor
  · intro hlaw page
    by_contra hsome
    obtain ⟨n, hn⟩ := Option.ne_none_iff_exists'.mp hsome
    obtain ⟨hcount, hfree⟩ := blockRun_count h hn
    cases n with
    | zero => exact hfree (hlaw.free page hn)
    | succ n =>
      have := hlaw.count page n hn
      omega
  · intro hnone
    constructor
    · exact fun page n hn => absurd hn (by simp [hnone])
    · exact fun page hn => absurd hn (by simp [hnone])
    · exact fun page hn => absurd hn (by simp [hnone])

end

/-! ## A run on a heap of one page -/

/-- A heap of one page with lines of a page. -/
def onePage : Layout where
  lineShift := 12
  kbssOrigin := 0
  slabBase := 0
  kmb := 4096
  nbPages := 1
  line_min := four_le_pageShift
  line_max := Nat.le_refl 12
  origin_le := twoPages.origin_le
  slab_le := twoPages.slab_le
  kmb_aligned := twoPages.kmb_aligned
  pages_pos := Nat.one_pos
  pages_le := onePage_le
  kme_lt := onePage_lt

/-- A device that reads and writes without errors. -/
def okDevs : Nat → Option BlockDev := fun _ =>
  some ⟨some fun lba => (0, fun _ => BitVec.ofNat 8 lba), some fun _ _ => 0⟩

theorem blockRun_onePage :
    BlockRun onePage okDevs usedMem ⟨kmemkernelInit onePage usedMem, []⟩ fun _ => none :=
  .start .init

/-- The only page is obtained with the count 2; its release leaves the count at 1
and no free page. -/
theorem blockio_page_leaks :
    ∃ s₁ s₂ refs₁ refs₂,
      BlockRun onePage okDevs usedMem s₁ refs₁ ∧ refs₁ 4096 = some 1 ∧
      pageGetRefcount onePage s₁.kmem 4096 = 2 ∧
      BlockRun onePage okDevs usedMem s₂ refs₂ ∧ refs₂ 4096 = some 0 ∧
      pageGetRefcount onePage s₂.kmem 4096 = 1 ∧
      listIsempty (cells onePage) s₂.kmem (onePage.slab 0) = true ∧
      ¬ RefcountLaw onePage okDevs s₁ refs₁ := by
  obtain ⟨⟨page, s₁⟩, hget⟩ := Option.isSome_iff_exists.mp
    (show (blockioGet onePage okDevs 0 0 ⟨kmemkernelInit onePage usedMem, []⟩).isSome by
      decide +kernel)
  have hget₁ : (blockioGet onePage okDevs 0 0 ⟨kmemkernelInit onePage usedMem, []⟩).map
      (fun r => (r.1, pageGetRefcount onePage r.2.kmem 4096)) = some (4096, 2) := by
    decide +kernel
  have hrel₁ : ((blockioGet onePage okDevs 0 0 ⟨kmemkernelInit onePage usedMem, []⟩).bind
      fun r => blockioRelease onePage okDevs 4096 r.2).map
      (fun r => (pageGetRefcount onePage r.2.kmem 4096,
        listIsempty (cells onePage) r.2.kmem (onePage.slab 0))) = some (1, true) := by
    decide +kernel
  rw [hget, Option.map_some, Option.some.injEq, Prod.mk.injEq] at hget₁
  obtain ⟨rfl, hcount⟩ := hget₁
  rw [hget, Option.bind_some] at hrel₁
  obtain ⟨⟨err, s₂⟩, hrel, hrel₂⟩ := Option.map_eq_some_iff.mp hrel₁
  rw [Prod.mk.injEq] at hrel₂
  have hrun₁ := blockRun_onePage.get rfl rfl hget
  have hrun₂ := hrun₁.release (n := 0) (by simp) hrel
  refine ⟨s₁, s₂, _, _, hrun₁, by simp, hcount, hrun₂, by simp, hrel₂.1, hrel₂.2, ?_⟩
  intro hlaw
  have hone := hlaw.count 4096 0 (by simp)
  rw [hcount] at hone
  exact absurd hone (by decide)

/-- The law before and after the page is obtained. -/
theorem blockRun_lawful_iff_onePage :
    RefcountLaw onePage okDevs ⟨kmemkernelInit onePage usedMem, []⟩ (fun _ => none) ∧
    ∃ s refs, BlockRun onePage okDevs usedMem s refs ∧ ¬ RefcountLaw onePage okDevs s refs := by
  refine ⟨(blockRun_lawful_iff blockRun_onePage).mpr fun _ => rfl, ?_⟩
  obtain ⟨⟨page, s₁⟩, hget⟩ := Option.isSome_iff_exists.mp
    (show (blockioGet onePage okDevs 0 0 ⟨kmemkernelInit onePage usedMem, []⟩).isSome by
      decide +kernel)
  have hrun := blockRun_onePage.get rfl rfl hget
  refine ⟨s₁, _, hrun, fun hlaw => ?_⟩
  exact absurd ((blockRun_lawful_iff hrun).mp hlaw page) (by simp)

end Ko6.Kernel
