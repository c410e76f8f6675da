import Ko6.Kernel.Slab

set_option autoImplicit false

/-!
# Kernel: runs of `kmalloc` and `kfree`

`Inv` adds the page descriptors to the lists: a free page has a null descriptor,
any other page tells which slab it belongs to, and a cut page counts its live
objects, modulo the 8 bits of the field, and is given back when the last one is
freed.  One lemma says what `kmalloc` does to it, one what `kfree` does, and the
statements about whole runs follow by induction.
-/

namespace Ko6.Kernel

open Ko6.Lib Ko6.Common

/-! ## The fields of a descriptor -/

namespace PageDesc

variable (d : PageDesc) (t : PageType) (v : BitVec 8)

@[simp] theorem type_setType : (d.setType t).type = t.toBits := extract_setField (by decide)

@[simp] theorem lines_setType : (d.setType t).lines = d.lines :=
  extract_setField_of_disjoint (by decide)

@[simp] theorem nbused_setType : (d.setType t).nbused = d.nbused :=
  extract_setField_of_disjoint (by decide)

@[simp] theorem type_setLines : (d.setLines v).type = d.type :=
  extract_setField_of_disjoint (by decide)

@[simp] theorem lines_setLines : (d.setLines v).lines = v := extract_setField (by decide)

@[simp] theorem nbused_setLines : (d.setLines v).nbused = d.nbused :=
  extract_setField_of_disjoint (by decide)

@[simp] theorem type_setNbused : (d.setNbused v).type = d.type :=
  extract_setField_of_disjoint (by decide)

@[simp] theorem lines_setNbused : (d.setNbused v).lines = d.lines :=
  extract_setField_of_disjoint (by decide)

@[simp] theorem nbused_setNbused : (d.setNbused v).nbused = v := extract_setField (by decide)

end PageDesc

/-! ## Descriptors and live objects -/

/-- The number of live objects in page `p`. -/
def liveCount (L : Layout) (live : Live) (kind : Kinds) (p : Nat) : Nat :=
  ((Finset.range (L.perPage (kind p))).filter fun k =>
    live (L.pageAddr p + k * L.objSize (kind p)) ≠ none).card

/-- What the descriptor of page `p` says.  The counter of a page given out whole
is left to its user. -/
def Described (L : Layout) (live : Live) (kind : Kinds) (p : Nat) (d : PageDesc) : Prop :=
  if kind p = 0 ∧ live (L.pageAddr p) = none then d = 0
  else d.type ≠ PageType.free.toBits ∧ d.lines = BitVec.ofNat 8 (kind p) ∧
    (kind p ≠ 0 → d.nbused = BitVec.ofNat 8 (liveCount L live kind p) ∧
      0 < liveCount L live kind p)

/-- The invariant of the allocator. -/
structure Inv (L : Layout) (s : Kmem) (live : Live) (kind : Kinds) (free : Nat → List Nat) :
    Prop extends Threaded L s live kind free where
  described : ∀ p, p < L.nbPages → Described L live kind p (s.page p)

section
variable {L : Layout} {s s' : Kmem} {live live' : Live} {kind kind' : Kinds}
  {free : Nat → List Nat} {x p k n : Nat} {d : PageDesc}

theorem liveCount_congr (hkind : kind' p = kind p)
    (hlive : ∀ a k, Piece L kind a p k → live' a = live a) (hp : p < L.nbPages)
    (hlt : kind p < L.maxLineSlab) :
    liveCount L live' kind' p = liveCount L live kind p := by
  rw [liveCount, liveCount, hkind]
  congr 1
  refine Finset.filter_congr fun k hk => ?_
  rw [hlive _ k ⟨hp, hlt, Finset.mem_range.mp hk, rfl⟩]

/-- A descriptor is about the pieces of its own page. -/
theorem Described.congr (h : Described L live kind p d) (hkind : kind' p = kind p)
    (hlive : ∀ a k, Piece L kind a p k → live' a = live a) (hp : p < L.nbPages)
    (hlt : kind p < L.maxLineSlab) : Described L live' kind' p d := by
  rw [Described] at h ⊢
  rw [liveCount_congr hkind hlive hp hlt, hkind]
  by_cases hk : kind p = 0
  · rwa [hlive _ 0 (piece_of_page hp hk)]
  · simpa [hk] using h

/-- A live object more. -/
theorem liveCount_take (hx : Piece L kind x p k) (hdead : live x = none) :
    liveCount L (Function.update live x (some n)) kind p = liveCount L live kind p + 1 := by
  have hfilter : (Finset.range (L.perPage (kind p))).filter (fun j =>
        Function.update live x (some n) (L.pageAddr p + j * L.objSize (kind p)) ≠ none)
      = insert k ((Finset.range (L.perPage (kind p))).filter fun j =>
        live (L.pageAddr p + j * L.objSize (kind p)) ≠ none) := by
    ext j
    simp only [Finset.mem_filter, Finset.mem_range, Finset.mem_insert]
    by_cases hjk : j = k
    · subst hjk
      rw [← hx.addr, Function.update_self]
      simp [hx.index_lt]
    · have hne : L.pageAddr p + j * L.objSize (kind p) ≠ x := by
        rw [hx.addr]
        intro he
        exact hjk (Nat.eq_of_mul_eq_mul_right (L.objSize_pos _) (Nat.add_left_cancel he))
      rw [Function.update_of_ne hne]
      simp [hjk]
  rw [liveCount, hfilter, Finset.card_insert_of_notMem]
  · rfl
  · simp [← hx.addr, hdead]

/-- A live object less. -/
theorem liveCount_give (hx : Piece L kind x p k) (hlive : live x = some n) :
    liveCount L live kind p = liveCount L (Function.update live x none) kind p + 1 := by
  rw [← liveCount_take (n := n) hx (Function.update_self ..), Function.update_idem, ← hlive,
    Function.update_eq_self]

theorem liveCount_le : liveCount L live kind p ≤ 256 := by
  calc liveCount L live kind p ≤ (Finset.range (L.perPage (kind p))).card :=
        Finset.card_filter_le _ _
    _ ≤ 256 := by rw [Finset.card_range]; exact L.perPage_le _

theorem live_of_liveCount_eq_zero (h : liveCount L live kind p = 0) {a : Nat}
    (ha : Piece L kind a p k) : live a = none := by
  rw [liveCount, Finset.card_eq_zero, Finset.filter_eq_empty_iff] at h
  have hk := h (Finset.mem_range.mpr ha.index_lt)
  rw [← ha.addr] at hk
  exact not_not.mp hk

end

/-! ## `kmalloc` -/

/-- The descriptor of the page of an object just taken. -/
def PageDesc.taken (d : PageDesc) (l : Nat) : PageDesc :=
  ((d.setLines (BitVec.ofNat 8 l)).setNbused (d.nbused + 1)).setType .slab

section
variable {L : Layout} {s s' : Kmem} {live : Live} {kind : Kinds} {free : Nat → List Nat}
  {x p k l n size : Nat} {rest : List Nat}

/-- The end of `kmalloc` when the list is not empty. -/
theorem Threaded.takeFirst_eq (h : Threaded L s live kind free) (hl : l < L.maxLineSlab)
    (hfree : free l = x :: rest) :
    takeFirst L l size s = (x,
      { mem := (listUnlink (cells L) s x).mem.fill x size 0,
        page := Function.update s.page (L.pageIdx x) ((s.page (L.pageIdx x)).taken l),
        objects := Function.update s.objects l (s.objects l + 1) }) := by
  have hrep : Rep (cells L) s (L.slab l) ([] ++ x :: rest) := by
    rw [List.nil_append, ← hfree]
    exact h.rep l hl
  have hpage : (listUnlink (cells L) s x).page = s.page :=
    hrep.unlink_touches _ _ fun c _ => outside_page c
  have hobj : (listUnlink (cells L) s x).objects = s.objects :=
    hrep.unlink_touches _ Kmem.objects fun c _ => ⟨fun _ _ => rfl, fun _ _ => rfl⟩
  rw [List.nil_append] at hrep
  simp only [takeFirst, hrep.getfirst_cons, Option.getD_some, Kmem.modPage, Kmem.modObjects,
    hpage, hobj, Function.update_idem, Function.update_self, PageDesc.nbused_setLines,
    PageDesc.taken]

theorem Threaded.takeFirst_spec (h : Threaded L s live kind free) (hl : l < L.maxLineSlab)
    (hfree : free l = x :: rest) (hn : n ≤ L.objSize l) (hsize : size ≤ L.objSize l) :
    ∃ s', takeFirst L l size s = (x, s') ∧
      Threaded L s' (Function.update live x (some n)) kind (Function.update free l rest) ∧
      s'.page = Function.update s.page (L.pageIdx x) ((s.page (L.pageIdx x)).taken l) ∧
      s'.objects = Function.update s.objects l (s.objects l + 1) ∧
      (∀ b, x ≤ b → b < x + size → s'.mem b = 0) ∧
      ∀ b, Owned L live kind b → s'.mem b = s.mem b := by
  obtain ⟨p, k, hpiece, hkind, hdead⟩ := (h.mem_free l hl x).mp (by simp [hfree])
  have hrep : Rep (cells L) s (L.slab l) ([] ++ x :: rest) := by
    rw [List.nil_append, ← hfree]
    exact h.rep l hl
  have htake := h.take hl hfree hn
  refine ⟨_, h.takeFirst_eq hl hfree, ?_, rfl, rfl, ?_, ?_⟩
  · refine htake.congr_mem fun m hm c hc b hlo hhi => Mem.fill_of_outside ?_
    -- the cleared bytes are those of a live object now
    by_contra hin
    have hown : Owned L (Function.update live x (some n)) kind b :=
      ⟨x, p, k, hpiece, by simp, by omega, by rw [hkind]; omega⟩
    have hap := htake.cell_apart hm hc hown
    omega
  · intro b hlo hhi
    exact Mem.fill_of_inside ⟨hlo, hhi⟩
  · intro b hb
    have hmem : (listUnlink (cells L) s x).mem b = s.mem b := by
      refine hrep.unlink_touches _ (fun s => s.mem b) fun c hc => outside_byte ?_
      refine h.cell_apart hl ?_ hb
      rw [hfree]
      simp only [List.nil_append, List.mem_cons] at hc ⊢
      tauto
    obtain ⟨a, q, j, hpiece', hlive, hlo, hhi⟩ := hb
    have hne : a ≠ x := by
      rintro rfl
      exact hlive hdead
    have hap := hpiece'.apart hpiece hne
    rw [hkind] at hap
    exact Eq.trans (Mem.fill_of_outside (by omega)) hmem

/-- After the end of `kmalloc` the descriptors are right again, given that they
were for the other pages and that the counter was right for this one. -/
theorem described_taken (page : Nat → PageDesc) (hx : Piece L kind x p k)
    (hlt : ∀ q, q < L.nbPages → kind q < L.maxLineSlab) (hdead : live x = none)
    (hcount : kind p ≠ 0 → (page p).nbused = BitVec.ofNat 8 (liveCount L live kind p))
    (hothers : ∀ q, q < L.nbPages → q ≠ p → Described L live kind q (page q)) :
    ∀ q, q < L.nbPages → Described L (Function.update live x (some n)) kind q
      (Function.update page (L.pageIdx x) ((page (L.pageIdx x)).taken (kind p)) q) := by
  intro q hq
  rw [hx.pageIdx]
  by_cases hqp : q = p
  · subst hqp
    rw [Function.update_self, Described, liveCount_take hx hdead]
    have hfree : ¬ (kind q = 0 ∧ Function.update live x (some n) (L.pageAddr q) = none) := by
      rintro ⟨h0, hnone⟩
      rw [← (hx.of_kind_zero h0).2, Function.update_self] at hnone
      exact absurd hnone (by simp)
    rw [if_neg hfree]
    refine ⟨?_, ?_, ?_⟩
    · simp [PageDesc.taken, PageType.toBits]
    · simp [PageDesc.taken]
    · intro h0
      refine ⟨?_, Nat.succ_pos _⟩
      simp [PageDesc.taken, hcount h0, BitVec.ofNat_add]
  · rw [Function.update_of_ne hqp]
    refine (hothers q hq hqp).congr rfl ?_ hq (hlt q hq)
    intro a j ha
    refine Function.update_of_ne ?_ _ _
    rintro rfl
    exact hqp (ha.page_eq hx)

/-- `kmalloc` of an object whose list is not empty. -/
theorem Inv.takeFirst_spec (h : Inv L s live kind free) (hl : l < L.maxLineSlab)
    (hfree : free l = x :: rest) (hn : n ≤ L.objSize l) (hsize : size ≤ L.objSize l) :
    ∃ s', takeFirst L l size s = (x, s') ∧
      Inv L s' (Function.update live x (some n)) kind (Function.update free l rest) ∧
      s'.page = Function.update s.page (L.pageIdx x) ((s.page (L.pageIdx x)).taken l) ∧
      s'.objects = Function.update s.objects l (s.objects l + 1) ∧
      (∀ b, x ≤ b → b < x + size → s'.mem b = 0) ∧
      ∀ b, Owned L live kind b → s'.mem b = s.mem b := by
  obtain ⟨p, k, hpiece, rfl, hdead⟩ := (h.mem_free l hl x).mp (by simp [hfree])
  obtain ⟨s', heq, hthr, hpage, hobj, hzero, hframe⟩ :=
    h.toThreaded.takeFirst_spec hl hfree hn hsize
  refine ⟨s', heq, ⟨hthr, ?_⟩, hpage, hobj, hzero, hframe⟩
  rw [hpage]
  refine described_taken _ hpiece h.kind_lt hdead ?_ fun q hq _ => h.described q hq
  intro h0
  have hdesc := h.described p hpiece.page_lt
  rw [Described, if_neg (fun hc => h0 hc.1)] at hdesc
  exact (hdesc.2.2 h0).1

/-- The list a request is served from, and the room of its objects. -/
theorem Layout.nbline_mod {size : Nat} (L : Layout) (hsize : size ≤ pageSize) :
    (L.nbline size = L.maxLineSlab ∧ L.nbline size % L.maxLineSlab = 0 ∨
      L.nbline size < L.maxLineSlab ∧ L.nbline size % L.maxLineSlab = L.nbline size) ∧
    L.nbline size * L.cacheLineSize ≤ L.objSize (L.nbline size % L.maxLineSlab) := by
  obtain ⟨hle, -⟩ := L.nbline_spec hsize
  rcases Nat.eq_or_lt_of_le hle with he | hlt
  · refine ⟨.inl ⟨he, by rw [he, Nat.mod_self]⟩, ?_⟩
    rw [he, Nat.mod_self, L.maxLineSlab_mul, Layout.objSize, if_pos rfl]
  · refine ⟨.inr ⟨hlt, Nat.mod_eq_of_lt hlt⟩, ?_⟩
    rw [Nat.mod_eq_of_lt hlt, Layout.objSize]
    split
    · rename_i h0
      rw [h0, Nat.zero_mul]
      exact Nat.zero_le _
    · exact Nat.le_refl _

/-- A request of a whole page takes all the lines. -/
theorem Layout.nbline_page (L : Layout) : L.nbline pageSize = L.maxLineSlab := by
  obtain ⟨hle, hge⟩ := L.nbline_spec (Nat.le_refl pageSize)
  refine Nat.le_antisymm hle (Nat.le_of_mul_le_mul_right ?_ L.line_pos)
  rw [L.maxLineSlab_mul]
  exact hge

/-- A request whose list is not empty makes no recursive call. -/
theorem Threaded.kmallocStep_take {self : Nat → Kmem → Option (Nat × Kmem)}
    (h : Threaded L s live kind free) (hsize : size ≤ pageSize)
    (hfree : free (L.nbline size % L.maxLineSlab) ≠ []) :
    kmallocStep L self size s = some (takeFirst L (L.nbline size % L.maxLineSlab)
      (L.nbline size * L.cacheLineSize) s) := by
  have hempty : ∀ l, l < L.maxLineSlab → free l ≠ [] →
      ¬ listIsempty (cells L) s (L.slab l) = true := by
    intro l hl hne
    rwa [(h.rep l hl).isempty_iff]
  have hpage : ¬ (size = pageSize ∧ listIsempty (cells L) s (L.slab 0) = true) := by
    rintro ⟨rfl, he⟩
    rw [L.nbline_page, Nat.mod_self] at hfree
    exact hempty 0 L.maxLineSlab_pos hfree he
  have hobj : ¬ (L.nbline size * L.cacheLineSize ≠ pageSize ∧
      listIsempty (cells L) s (L.slab (L.nbline size)) = true) := by
    rintro ⟨hne, he⟩
    rcases (L.nbline_mod hsize).1 with ⟨hmax, -⟩ | ⟨hlt, hmod⟩
    · exact hne (by rw [hmax, L.maxLineSlab_mul])
    · rw [hmod] at hfree
      exact hempty _ hlt hfree he
  simp only [kmallocStep, if_neg (Nat.not_lt.mpr hsize), if_neg hpage, if_neg hobj]

/-- A request whose list is empty cuts a page first. -/
theorem Threaded.kmallocStep_refill (self : Nat → Kmem → Option (Nat × Kmem))
    (h : Threaded L s live kind free) (hsize : size ≤ pageSize)
    (hempty : free (L.nbline size % L.maxLineSlab) = []) (hfree : free 0 ≠ []) :
    L.nbline size < L.maxLineSlab ∧ L.nbline size ≠ 0 ∧ free (L.nbline size) = [] ∧
    kmallocStep L self size s = (refill L self (L.nbline size) (L.objSize (L.nbline size)) s).bind
      fun s => some (takeFirst L (L.nbline size) (L.objSize (L.nbline size)) s) := by
  rcases (L.nbline_mod hsize).1 with ⟨-, hmod⟩ | ⟨hlt, hmod⟩
  · rw [hmod] at hempty
    exact absurd hempty hfree
  · rw [hmod] at hempty
    have h0 : L.nbline size ≠ 0 := by
      intro h0
      rw [h0] at hempty
      exact hfree hempty
    refine ⟨hlt, h0, hempty, ?_⟩
    have hroom : L.nbline size * L.cacheLineSize = L.objSize (L.nbline size) := by
      rw [Layout.objSize, if_neg h0]
    have hne : L.nbline size * L.cacheLineSize ≠ pageSize := by
      rw [← L.maxLineSlab_mul]
      exact fun he => Nat.ne_of_lt hlt (Nat.eq_of_mul_eq_mul_right L.line_pos he)
    have hpage : ¬ (size = pageSize ∧ listIsempty (cells L) s (L.slab 0) = true) := by
      rintro ⟨rfl, -⟩
      rw [L.nbline_page] at hlt
      exact Nat.lt_irrefl _ hlt
    have hlist := (h.rep _ hlt).isempty_iff.mpr hempty
    simp only [kmallocStep, if_neg (Nat.not_lt.mpr hsize), if_neg hpage, if_pos (And.intro hne hlist),
      hmod]
    rw [hroom]
    rfl

theorem Threaded.kmallocStep_page {self : Nat → Kmem → Option (Nat × Kmem)}
    (h : Threaded L s live kind free) (hfree : free 0 = x :: rest) :
    kmallocStep L self pageSize s = some (takeFirst L 0 pageSize s) := by
  have hmod : L.nbline pageSize % L.maxLineSlab = 0 := by rw [L.nbline_page, Nat.mod_self]
  rw [h.kmallocStep_take (Nat.le_refl _) (by rw [hmod, hfree]; simp), hmod, L.nbline_page,
    L.maxLineSlab_mul]

/-- The loop writes no counter. -/
theorem cutLoop_objects {root page : Nat} (fuel : Nat) {x : Nat} {s s' : Kmem}
    (h : cutLoop L root size page fuel x s = some s') : s'.objects = s.objects := by
  induction fuel generalizing x s with
  | zero => exact absurd h (by simp [cutLoop])
  | succ fuel ih =>
    rw [cutLoop] at h
    split at h
    · exact (ih h).trans rfl
    · rw [Option.some.inj h]

/-- The middle of `kmalloc`: a free page is divided and its pieces are the free
objects of `Slab[l]`. -/
theorem Inv.refill_spec (self : Nat → Kmem → Option (Nat × Kmem)) (h : Inv L s live kind free)
    (hl : l < L.maxLineSlab) (hl0 : l ≠ 0) (hempty : free l = []) (hfree : free 0 = x :: rest) :
    ∃ s' p, refill L (kmallocStep L self) l (L.objSize l) s = some s' ∧
      p < L.nbPages ∧ kind p = 0 ∧ live (L.pageAddr p) = none ∧
      Threaded L s' live (Function.update kind p l)
        (Function.update (Function.update free 0 rest) l
          (piecesFrom (L.pageAddr p) (L.objSize l) 0 (L.perPage l))) ∧
      (s'.page p).nbused = 0 ∧ (∀ q, q ≠ p → s'.page q = s.page q) ∧
      s'.objects = Function.update s.objects 0 (s.objects 0 + 1) ∧
      ∀ b, Owned L live kind b → s'.mem b = s.mem b := by
  have h0 := L.maxLineSlab_pos
  obtain ⟨p, k, hpiece, hkind, hdead⟩ := (h.mem_free 0 h0 x).mp (by simp [hfree])
  obtain ⟨-, rfl⟩ := hpiece.of_kind_zero hkind
  have hfull : L.objSize 0 = pageSize := if_pos rfl
  obtain ⟨s₁, htake, hthr₁, hpage₁, hobj₁, -, hmem₁⟩ :=
    h.toThreaded.takeFirst_spec h0 hfree hfull.ge hfull.ge
  -- the counter is reset before the page is cut
  have hthr₂ : Threaded L (s₁.modPage p (·.setNbused 0))
      (Function.update live (L.pageAddr p) (some pageSize)) kind
      (Function.update free 0 rest) := hthr₁.congr_mem fun _ _ _ _ _ _ _ => rfl
  obtain ⟨s₂, hcut, hthr, hpage₂, hmem₂⟩ := hthr₂.cut hpiece.page_lt hkind (by simp) hl hl0
    (by rwa [Function.update_of_ne hl0])
  have hback : Function.update (Function.update live (L.pageAddr p) (some pageSize))
      (L.pageAddr p) none = live := by
    rw [Function.update_idem, ← hdead, Function.update_eq_self]
  rw [hback] at hthr hmem₂
  have hobj₂ : s₂.objects = s₁.objects := (cutLoop_objects _ hcut).trans rfl
  refine ⟨s₂, p, ?_, hpiece.page_lt, hkind, hdead, hthr, ?_, ?_, hobj₂.trans hobj₁, ?_⟩
  · rw [refill, h.toThreaded.kmallocStep_page hfree, htake]
    simp only [Option.bind_eq_bind, Option.bind_some, hpiece.pageIdx]
    exact hcut
  · rw [hpage₂]
    simp [Kmem.modPage]
  · intro q hqp
    rw [hpage₂, Kmem.modPage]
    simp only [Function.update_of_ne hqp]
    rw [hpage₁, hpiece.pageIdx, Function.update_of_ne hqp]
  · intro b hb
    rw [hmem₂ b hb]
    exact hmem₁ b hb

theorem Owned.update_kind {b : Nat} (hb : Owned L live kind b) (hkind : kind p = 0)
    (hdead : live (L.pageAddr p) = none) : Owned L live (Function.update kind p l) b := by
  obtain ⟨a, q, k, hpiece, hlive, hlo, hhi⟩ := hb
  have hqp : q ≠ p := by
    rintro rfl
    rw [(hpiece.of_kind_zero hkind).2] at hlive
    exact hlive hdead
  refine ⟨a, q, k, (Threaded.piece_update_iff hqp).mpr hpiece, hlive, hlo, ?_⟩
  rwa [Function.update_of_ne hqp]

/-- How `kmalloc` serves a request from `Slab[l]`, with the counters before and after it:
it takes an object of the list, after it has cut a free page if there was none. -/
inductive Serves (L : Layout) (live : Live) (kind : Kinds) (objects : Nat → BitVec 32)
    (x l : Nat) : Kinds → (Nat → BitVec 32) → Prop where
  | take {p k : Nat} : Piece L kind x p k → kind p = l →
      Serves L live kind objects x l kind (Function.update objects l (objects l + 1))
  | cut {p k : Nat} : l ≠ 0 → kind p = 0 → live (L.pageAddr p) = none →
      Piece L (Function.update kind p l) x p k →
      Serves L live kind objects x l (Function.update kind p l)
        (Function.update (Function.update objects 0 (objects 0 + 1)) l (objects l + 1))

/-- `kmalloc` gives a fresh object, cleared, and touches no live one. -/
theorem Inv.kmalloc_spec (h : Inv L s live kind free) (hsize : size ≤ pageSize)
    (havail : free (L.nbline size % L.maxLineSlab) ≠ [] ∨ free 0 ≠ []) :
    ∃ x s' kind' free', kmalloc L size s = some (x, s') ∧ live x = none ∧
      Inv L s' (Function.update live x (some size)) kind' free' ∧
      Serves L live kind s.objects x (L.nbline size % L.maxLineSlab) kind' s'.objects ∧
      (∀ b, x ≤ b → b < x + size → s'.mem b = 0) ∧
      ∀ b, Owned L live kind b → s'.mem b = s.mem b := by
  have hmod : L.nbline size % L.maxLineSlab < L.maxLineSlab := Nat.mod_lt _ L.maxLineSlab_pos
  have hroom := (L.nbline_spec hsize).2
  have hfits := (L.nbline_mod hsize).2
  by_cases hfree : free (L.nbline size % L.maxLineSlab) = []
  · -- the list is empty: cut a page, then take its first piece
    obtain ⟨x₀, rest₀, hpages⟩ := List.exists_cons_of_ne_nil (havail.resolve_left (not_not.mpr hfree))
    obtain ⟨hl, hl0, hempty, hstep⟩ := h.toThreaded.kmallocStep_refill
      (kmallocStep L fun _ _ => none) hsize hfree (by rw [hpages]; simp)
    obtain ⟨s₁, p, hrefill, hp, hkind, hdead, hthr, hused, hpage₁, hobj₁, hmem₁⟩ :=
      h.refill_spec (fun _ _ => none) hl hl0 hempty hpages
    obtain ⟨d, hd⟩ : ∃ d, L.perPage (L.nbline size) = d + 1 :=
      ⟨_, (Nat.succ_pred_eq_of_pos (L.perPage_pos hl)).symm⟩
    have hcut : Function.update (Function.update free 0 rest₀) (L.nbline size)
        (piecesFrom (L.pageAddr p) (L.objSize (L.nbline size)) 0 (L.perPage (L.nbline size)))
        (L.nbline size)
        = L.pageAddr p :: piecesFrom (L.pageAddr p) (L.objSize (L.nbline size)) 1 d := by
      rw [Function.update_self, hd]
      simp [piecesFrom, List.range'_succ]
    have hobj : L.nbline size * L.cacheLineSize = L.objSize (L.nbline size) := by
      rw [Layout.objSize, if_neg hl0]
    obtain ⟨s₂, htake, hthr₂, hpage₂, hobj₂, hzero, hmem₂⟩ := hthr.takeFirst_spec hl hcut
      (n := size) (hobj ▸ hroom) (Nat.le_refl _)
    have hkp : Function.update kind p (L.nbline size) p = L.nbline size :=
      Function.update_self ..
    have hpiece : Piece L (Function.update kind p (L.nbline size)) (L.pageAddr p) p 0 := by
      refine ⟨hp, ?_, ?_, by simp⟩ <;> rw [hkp]
      · exact hl
      · exact L.perPage_pos hl
    have hnolive : liveCount L live (Function.update kind p (L.nbline size)) p = 0 := by
      rw [liveCount, Finset.card_eq_zero, Finset.filter_eq_empty_iff]
      intro k hk
      have hk' := Finset.mem_range.mp hk
      rw [hkp] at hk' ⊢
      have hmem := (hthr.mem_free _ hl (L.pageAddr p + k * L.objSize (L.nbline size))).mp
        (by rw [Function.update_self, mem_piecesFrom]; exact ⟨k, by omega, by omega, rfl⟩)
      obtain ⟨q, j, -, -, hnone⟩ := hmem
      exact not_not.mpr hnone
    have hserves : Serves L live kind s.objects (L.pageAddr p) (L.nbline size % L.maxLineSlab)
        (Function.update kind p (L.nbline size)) s₂.objects := by
      rw [Nat.mod_eq_of_lt hl, hobj₂, hobj₁, Function.update_of_ne hl0]
      exact .cut hl0 hkind hdead hpiece
    refine ⟨_, s₂, _, _, ?_, hdead, ⟨hthr₂, ?_⟩, hserves, ?_, ?_⟩
    · rw [kmalloc, hstep, hrefill, Option.bind_some, htake]
    · rw [hpage₂]
      have hdesc := described_taken s₁.page (n := size) hpiece hthr.kind_lt hdead
        (fun _ => by rw [hused, hnolive]; rfl) ?_
      · rwa [hkp] at hdesc
      · intro q hq hqp
        rw [hpage₁ q hqp]
        exact (h.described q hq).congr (Function.update_of_ne hqp _ _) (fun _ _ _ => rfl) hq
          (h.kind_lt q hq)
    · intro b hlo hhi
      exact hzero b hlo (by rw [hobj] at hroom; omega)
    · intro b hb
      rw [hmem₂ b (hb.update_kind hkind hdead), hmem₁ b hb]
  · obtain ⟨x, rest, hcons⟩ := List.exists_cons_of_ne_nil hfree
    obtain ⟨p, k, hpiece, hkind, hdead⟩ := (h.mem_free _ hmod x).mp (by rw [hcons]; simp)
    obtain ⟨s', htake, hinv, -, hobj, hzero, hmem⟩ := h.takeFirst_spec hmod hcons (n := size)
      (hroom.trans hfits) hfits
    have hserves : Serves L live kind s.objects x (L.nbline size % L.maxLineSlab) kind
        s'.objects := by
      rw [hobj]
      exact .take hpiece hkind
    refine ⟨x, s', _, _, ?_, hdead, hinv, hserves, ?_, hmem⟩
    · rw [kmalloc, h.toThreaded.kmallocStep_take hsize hfree, htake]
    · exact fun b hlo hhi => hzero b hlo (by omega)

/-- `kmalloc` of a page: the first free one, with its counter at 1, or a panic. -/
theorem Inv.kmalloc_page (h : Inv L s live kind free) :
    free 0 = [] ∧ kmalloc L pageSize s = none ∨
    ∃ p s' rest, p < L.nbPages ∧ kind p = 0 ∧ live (L.pageAddr p) = none ∧
      kmalloc L pageSize s = some (L.pageAddr p, s') ∧
      Inv L s' (Function.update live (L.pageAddr p) (some pageSize)) kind
        (Function.update free 0 rest) ∧
      s'.page = Function.update s.page p (PageDesc.taken 0 0) ∧
      ∀ b, Owned L live kind b → s'.mem b = s.mem b := by
  have h0 := L.maxLineSlab_pos
  cases hfree : free 0 with
  | nil =>
    have hempty := (h.rep 0 h0).isempty_iff.mpr hfree
    refine .inl ⟨rfl, ?_⟩
    simp only [kmalloc, kmallocStep, lt_irrefl, if_false, hempty, true_and, if_true]
  | cons x rest =>
    obtain ⟨p, k, hpiece, hkind, hdead⟩ := (h.mem_free 0 h0 x).mp (by simp [hfree])
    obtain ⟨-, rfl⟩ := hpiece.of_kind_zero hkind
    have hfull : L.objSize 0 = pageSize := if_pos rfl
    obtain ⟨s', htake, hinv, hpage, -, -, hmem⟩ :=
      h.takeFirst_spec h0 hfree hfull.ge hfull.ge
    have hdesc := h.described p hpiece.page_lt
    rw [Described, if_pos ⟨hkind, hdead⟩] at hdesc
    rw [hpiece.pageIdx, hdesc] at hpage
    refine .inr ⟨p, s', rest, hpiece.page_lt, hkind, hdead, ?_, hinv, hpage, hmem⟩
    rw [kmalloc, h.toThreaded.kmallocStep_page hfree, htake]

/-! ## `kfree` -/

/-- The `list_addfirst` of `kfree` writes to free memory only. -/
theorem Threaded.give_frame (h : Threaded L s live kind free) (hpiece : Piece L kind x p k)
    (hlive : live x ≠ none) :
    (listAddfirst (cells L) s (L.slab (kind p)) x).page = s.page ∧
    (listAddfirst (cells L) s (L.slab (kind p)) x).objects = s.objects ∧
    ∀ b, Owned L (Function.update live x none) kind b →
      (listAddfirst (cells L) s (L.slab (kind p)) x).mem b = s.mem b := by
  have hl := hpiece.kind_lt
  have htouch := (h.rep _ hl).addfirst_touches hpiece.isCell (h.live_not_mem hpiece hlive hl)
  refine ⟨htouch _ _ fun c _ => outside_page c,
    htouch _ Kmem.objects fun c _ => ⟨fun _ _ => rfl, fun _ _ => rfl⟩, ?_⟩
  rintro b ⟨a, q, j, hpiece', halive, hlo, hhi⟩
  have hne : a ≠ x := by
    rintro rfl
    exact halive (Function.update_self ..)
  rw [Function.update_of_ne hne] at halive
  refine htouch _ (fun s => s.mem b) fun c hc => outside_byte ?_
  rcases List.mem_cons.mp hc with rfl | hc
  · have hap := hpiece'.apart hpiece hne
    have h16 := L.sixteen_le_objSize (kind p)
    omega
  · exact h.cell_apart hl hc ⟨a, q, j, hpiece', halive, hlo, hhi⟩

/-- The descriptor of the page of a live object. -/
theorem Inv.described_live (h : Inv L s live kind free) (hpiece : Piece L kind x p k)
    (hlive : live x ≠ none) :
    (s.page p).type ≠ PageType.free.toBits ∧ (s.page p).lines.toNat = kind p ∧
    (kind p ≠ 0 → (s.page p).nbused = BitVec.ofNat 8 (liveCount L live kind p)) := by
  have hdesc := h.described p hpiece.page_lt
  have hused : ¬ (kind p = 0 ∧ live (L.pageAddr p) = none) := by
    rintro ⟨h0, hnone⟩
    rw [(hpiece.of_kind_zero h0).2] at hlive
    exact hlive hnone
  rw [Described, if_neg hused] at hdesc
  refine ⟨hdesc.1, ?_, fun h0 => (hdesc.2.2 h0).1⟩
  have hlt := hpiece.kind_lt
  have hmax := L.maxLineSlab_le
  rw [hdesc.2.1, BitVec.toNat_ofNat]
  exact Nat.mod_eq_of_lt (by omega)

/-- The descriptors of the other pages after an object has gone. -/
theorem Inv.described_other (h : Inv L s live kind free) (hpiece : Piece L kind x p k) {q : Nat}
    (hq : q < L.nbPages) (hqp : q ≠ p) :
    Described L (Function.update live x none) kind q (s.page q) := by
  refine (h.described q hq).congr rfl ?_ hq (h.kind_lt q hq)
  intro a j ha
  refine Function.update_of_ne ?_ _ _
  rintro rfl
  exact hqp (ha.page_eq hpiece)

/-- The counter of a cut page goes down by one, and is 0 when no object is
left. -/
theorem nbused_give {d : PageDesc} (hpiece : Piece L kind x p k) (hlive : live x = some n)
    (hused : d.nbused = BitVec.ofNat 8 (liveCount L live kind p)) :
    d.nbused - 1 = BitVec.ofNat 8 (liveCount L (Function.update live x none) kind p) ∧
    (d.nbused - 1 = 0 ↔ liveCount L (Function.update live x none) kind p = 0) := by
  have hcount := liveCount_give hpiece hlive
  have hle : liveCount L live kind p ≤ 256 := liveCount_le
  have hsub : d.nbused - 1 =
      BitVec.ofNat 8 (liveCount L (Function.update live x none) kind p) := by
    rw [hused, hcount, BitVec.ofNat_add]
    exact BitVec.add_sub_cancel _ _
  refine ⟨hsub, ?_⟩
  rw [hsub]
  constructor
  · intro h0
    have hval := congrArg BitVec.toNat h0
    rw [BitVec.toNat_ofNat] at hval
    simp only [BitVec.toNat_zero, BitVec.ofNat_eq_ofNat] at hval
    omega
  · intro h0
    rw [h0]
    rfl

/-- The end of `kfree`. -/
theorem Threaded.reclaim_spec (h : Threaded L s live kind free) (hpiece : Piece L kind x p k)
    (h0 : kind p ≠ 0) (hdead : ∀ a k, Piece L kind a p k → live a = none) :
    ∃ s' free', reclaim L (kind p) p x s = some s' ∧
      Threaded L s' live (Function.update kind p 0) free' ∧
      s'.page = Function.update s.page p 0 ∧
      s'.objects = Function.update s.objects 0 (s.objects 0 - 1) ∧
      ∀ b, Owned L live kind b → s'.mem b = s.mem b := by
  have hp := hpiece.page_lt
  obtain ⟨s₁, hloop, hthr₁, hpage₁, hmem₁⟩ := h.uncut hp h0 hdead
  have hwhole : Piece L (Function.update kind p 0) (L.pageAddr p) p 0 :=
    piece_of_page hp (Function.update_self ..)
  have haddr : x / pageSize * pageSize = L.pageAddr p := by
    have hlo := hpiece.lo
    have hhi := hpiece.lt
    have hkmb := L.kmb_aligned
    simp only [Layout.pageAddr, pageSize] at *
    omega
  -- the descriptor is written between the two changes of the lists
  obtain ⟨s₂, hs₂⟩ : ∃ s₂, s₂ = (s₁.modPage p fun _ => 0).modPage p (·.setLines 0) := ⟨_, rfl⟩
  have hpage₂ : s₂.page = Function.update s.page p 0 := by
    rw [hs₂]
    simp only [Kmem.modPage, Function.update_idem, Function.update_self, hpage₁]
    congr 1
  have hthr₂ : Threaded L s₂ (Function.update live (L.pageAddr p) (some pageSize))
      (Function.update kind p 0)
      (Function.update free (kind p) ((free (kind p)).filter fun a => L.pageIdx a ≠ p)) := by
    rw [hs₂]
    exact hthr₁.congr_mem fun _ _ _ _ _ _ _ => rfl
  have hmem₂ : s₂.mem = s₁.mem := by
    rw [hs₂]
    rfl
  have hobj₂ : s₂.objects = s.objects := by
    rw [hs₂]
    refine Eq.trans ?_ (foreachLoop_keeps (f := Kmem.objects) (fun s x => ?_) _ hloop)
    · rfl
    · split
      · rfl
      · rfl
  have hgive := hthr₂.give hwhole (by simp)
  obtain ⟨hpage₃, hobj₃, hmem₃⟩ := hthr₂.give_frame hwhole (by simp)
  have hfirst : live (L.pageAddr p) = none := by
    refine hdead _ 0 ⟨hp, hpiece.kind_lt, L.perPage_pos hpiece.kind_lt, by simp⟩
  have hback : Function.update (Function.update live (L.pageAddr p) (some pageSize))
      (L.pageAddr p) none = live := by
    rw [Function.update_idem, ← hfirst, Function.update_eq_self]
  rw [hback, Function.update_self] at hgive
  rw [hback, Function.update_self] at hmem₃
  rw [Function.update_self] at hpage₃ hobj₃
  refine ⟨(listAddfirst (cells L) s₂ (L.slab 0) (L.pageAddr p)).modObjects 0 (· - 1), _, ?_,
    hgive.congr_mem fun _ _ _ _ _ _ _ => rfl, ?_, ?_, ?_⟩
  · simp only [reclaim, hloop, Option.bind_eq_bind, Option.bind_some, ← hs₂, haddr]
  · rw [Kmem.modObjects_page, hpage₃, hpage₂]
  · rw [Kmem.modObjects, hobj₃, hobj₂]
  · intro b hb
    have hb' : Owned L live (Function.update kind p 0) b := by
      obtain ⟨a, q, j, hpiece', hlive, hlo, hhi⟩ := hb
      have hqp : q ≠ p := by
        rintro rfl
        exact hlive (hdead a j hpiece')
      refine ⟨a, q, j, (Threaded.piece_update_iff hqp).mpr hpiece', hlive, hlo, ?_⟩
      rwa [Function.update_of_ne hqp]
    rw [Kmem.modObjects_mem, hmem₃ b hb', hmem₂, hmem₁ b hb]

/-- The first part of `kfree`: the object is in its list again. -/
theorem Inv.kfree_give (h : Inv L s live kind free) (hpiece : Piece L kind x p k)
    (hlive : live x ≠ none) :
    ∃ s₁, s₁.page = s.page ∧
      s₁.objects = Function.update s.objects (kind p) (s.objects (kind p) - 1) ∧
      Threaded L s₁ (Function.update live x none) kind
        (Function.update free (kind p) (x :: free (kind p))) ∧
      (∀ b, Owned L (Function.update live x none) kind b → s₁.mem b = s.mem b) ∧
      kfree L x s =
        if kind p = 0 then some (s₁.modPage p fun _ => 0)
        else if ((s₁.modPage p fun d => d.setNbused (d.nbused - 1)).page p).nbused = 0 then
          reclaim L (kind p) p x (s₁.modPage p fun d => d.setNbused (d.nbused - 1))
        else some (s₁.modPage p fun d => d.setNbused (d.nbused - 1)) := by
  obtain ⟨htype, hlines, -⟩ := h.described_live hpiece hlive
  have hin := hpiece.in_heap
  have hpos := L.objSize_pos (kind p)
  have hseg : ¬ (x < L.kmb ∨ L.kme ≤ x) := by omega
  have hthr := h.toThreaded.give hpiece hlive
  obtain ⟨hpage, hobj, hmem⟩ := h.toThreaded.give_frame hpiece hlive
  refine ⟨(listAddfirst (cells L) s (L.slab (kind p)) x).modObjects (kind p) (· - 1), hpage,
    by rw [Kmem.modObjects, hobj], hthr.congr_mem fun _ _ _ _ _ _ _ => rfl, hmem, ?_⟩
  rw [kfree, if_neg hseg]
  simp only [hpiece.pageIdx, if_neg htype, hlines]

/-- `kfree` of a page that was given out whole. -/
theorem Inv.kfree_page (h : Inv L s live kind free) (hp : p < L.nbPages) (hkind : kind p = 0)
    (hlive : live (L.pageAddr p) ≠ none) :
    ∃ s' free', kfree L (L.pageAddr p) s = some s' ∧
      Inv L s' (Function.update live (L.pageAddr p) none) kind free' ∧
      s'.page = Function.update s.page p 0 ∧
      s'.objects = Function.update s.objects 0 (s.objects 0 - 1) ∧
      ∀ b, Owned L (Function.update live (L.pageAddr p) none) kind b → s'.mem b = s.mem b := by
  have hpiece := piece_of_page hp hkind
  obtain ⟨s₁, hpage, hobj, hthr, hmem, heq⟩ := h.kfree_give hpiece hlive
  rw [if_pos hkind] at heq
  have hpage' : (s₁.modPage p fun _ => 0).page = Function.update s.page p 0 := by
    rw [Kmem.modPage_page, hpage]
  rw [hkind] at hobj
  refine ⟨_, _, heq, ⟨hthr.congr_mem fun _ _ _ _ _ _ _ => rfl, ?_⟩, hpage', hobj, hmem⟩
  intro q hq
  rw [hpage']
  by_cases hqp : q = p
  · subst hqp
    rw [Function.update_self, Described, if_pos]
    exact ⟨hkind, Function.update_self ..⟩
  · rw [Function.update_of_ne hqp]
    exact h.described_other hpiece hq hqp

/-- How `kfree` takes an object back, with the counters before and after it: the object
goes to its list, and the page of the last object to the free pages. -/
inductive TakesBack (L : Layout) (live : Live) (kind : Kinds) (objects : Nat → BitVec 32)
    (x : Nat) : Kinds → (Nat → BitVec 32) → Prop where
  | give {p k : Nat} : Piece L kind x p k →
      TakesBack L live kind objects x kind
        (Function.update objects (kind p) (objects (kind p) - 1))
  | reclaim {p k : Nat} : Piece L kind x p k → kind p ≠ 0 →
      (∀ a k, Piece L kind a p k → Function.update live x none a = none) →
      TakesBack L live kind objects x (Function.update kind p 0)
        (Function.update (Function.update objects (kind p) (objects (kind p) - 1)) 0
          (objects 0 - 1))

/-- `kfree` of a live object succeeds and touches no other one. -/
theorem Inv.kfree_spec (h : Inv L s live kind free) (hlive : live x = some n) :
    ∃ s' kind' free', kfree L x s = some s' ∧
      Inv L s' (Function.update live x none) kind' free' ∧
      TakesBack L live kind s.objects x kind' s'.objects ∧
      ∀ b, Owned L (Function.update live x none) kind b → s'.mem b = s.mem b := by
  obtain ⟨p, k, hpiece, -⟩ := h.live_piece x n hlive
  have hsome : live x ≠ none := by simp [hlive]
  by_cases h0 : kind p = 0
  · -- a whole page
    obtain ⟨-, rfl⟩ := hpiece.of_kind_zero h0
    obtain ⟨s', free', heq, hinv, -, hobj, hmem⟩ := h.kfree_page hpiece.page_lt h0 hsome
    have hreleases : TakesBack L live kind s.objects (L.pageAddr p) kind s'.objects := by
      have hgive : TakesBack L live kind s.objects (L.pageAddr p) kind
          (Function.update s.objects (kind p) (s.objects (kind p) - 1)) := .give hpiece
      rwa [h0, ← hobj] at hgive
    exact ⟨s', kind, free', heq, hinv, hreleases, hmem⟩
  · obtain ⟨htype, hlines, hcount⟩ := h.described_live hpiece hsome
    obtain ⟨hsub, hzero⟩ := nbused_give hpiece hlive (hcount h0)
    obtain ⟨s₁, hpage₁, hobj₁, hthr₁, hmem₁, heq⟩ := h.kfree_give hpiece hsome
    have hnbused : ((s₁.modPage p fun d => d.setNbused (d.nbused - 1)).page p).nbused
        = (s.page p).nbused - 1 := by
      rw [Kmem.modPage_page, Function.update_self, PageDesc.nbused_setNbused, hpage₁]
    have hthr₂ : Threaded L (s₁.modPage p fun d => d.setNbused (d.nbused - 1)) _ kind _ :=
      hthr₁.congr_mem fun _ _ _ _ _ _ _ => rfl
    rw [if_neg h0, hnbused] at heq
    rw [heq]
    by_cases hlast : (s.page p).nbused - 1 = 0
    · -- the last object of its page
      have hnone := hzero.mp hlast
      have hdead : ∀ a k, Piece L kind a p k → Function.update live x none a = none :=
        fun a k ha => live_of_liveCount_eq_zero hnone ha
      obtain ⟨s₃, free₃, hrec, hthr₃, hpage₃, hobj₃, hmem₃⟩ :=
        hthr₂.reclaim_spec hpiece h0 hdead
      rw [if_pos hlast, hrec]
      have hreleases : TakesBack L live kind s.objects x (Function.update kind p 0)
          s₃.objects := by
        rw [hobj₃, Kmem.modPage_objects, hobj₁, Function.update_of_ne (Ne.symm h0)]
        exact .reclaim hpiece h0 hdead
      refine ⟨s₃, _, _, rfl, ⟨hthr₃, ?_⟩, hreleases,
        fun b hb => (hmem₃ b hb).trans (hmem₁ b hb)⟩
      intro q hq
      rw [hpage₃, Kmem.modPage_page, hpage₁]
      by_cases hqp : q = p
      · subst hqp
        rw [Function.update_self, Described, if_pos]
        refine ⟨Function.update_self .., ?_⟩
        exact live_of_liveCount_eq_zero (k := 0) hnone
          ⟨hq, hpiece.kind_lt, L.perPage_pos hpiece.kind_lt, by simp⟩
      · rw [Function.update_of_ne hqp, Function.update_of_ne hqp]
        exact (h.described_other hpiece hq hqp).congr (Function.update_of_ne hqp _ _)
          (fun _ _ _ => rfl) hq (h.kind_lt q hq)
    · rw [if_neg hlast]
      have hreleases : TakesBack L live kind s.objects x kind
          (s₁.modPage p fun d => d.setNbused (d.nbused - 1)).objects := by
        rw [Kmem.modPage_objects, hobj₁]
        exact .give hpiece
      refine ⟨_, kind, _, rfl, ⟨hthr₂, ?_⟩, hreleases, hmem₁⟩
      intro q hq
      rw [Kmem.modPage_page, hpage₁]
      by_cases hqp : q = p
      · subst hqp
        rw [Function.update_self, Described, if_neg fun hc => h0 hc.1]
        refine ⟨by simpa using htype, ?_, fun _ => ⟨by simpa using hsub, ?_⟩⟩
        · rw [PageDesc.lines_setNbused, ← hlines, BitVec.ofNat_toNat, BitVec.setWidth_eq]
        · exact Nat.pos_of_ne_zero fun hz => hlast (hzero.mpr hz)
      · rw [Function.update_of_ne hqp]
        exact h.described_other hpiece hq hqp

/-! ## `kmemkernel_init` -/

/-- The first loop: each root on its own. -/
theorem initRoots_spec (L : Layout) (s : Kmem) : ∀ n, n ≤ L.maxLineSlab →
    (∀ l, l < n → Rep (cells L) ((List.range n).foldl
      (fun s i => listInit (cells L) s (L.slab i)) s) (L.slab l) []) ∧
    ((List.range n).foldl (fun s i => listInit (cells L) s (L.slab i)) s).page = s.page := by
  intro n
  induction n with
  | zero =>
    intro _
    exact ⟨fun l hl => absurd hl (Nat.not_lt_zero l), rfl⟩
  | succ n ih =>
    intro hn
    obtain ⟨hrep, hpage⟩ := ih (by omega)
    rw [List.range_succ, List.foldl_append]
    simp only [List.foldl_cons, List.foldl_nil]
    have hcell : (cells L).IsCell (L.slab n) := slab_isCell hn
    refine ⟨?_, (init_touches _ _ fun c _ => outside_page c).trans hpage⟩
    intro l hl
    by_cases hln : l = n
    · subst hln
      exact rep_init hcell
    · refine init_touches.rep (hrep l (by omega)) (by simpa using hcell) ?_
      simp only [List.mem_singleton, forall_eq, Layout.slab]
      omega

/-- The second loop: the pages, in order, in `Slab[0]`. -/
theorem initPages_spec (L : Layout) {s : Kmem}
    (hroots : ∀ l, l < L.maxLineSlab → Rep (cells L) s (L.slab l) [])
    (hpage : s.page = fun _ => 0) : ∀ n, n ≤ L.nbPages →
    ∀ s', s' = (List.range n).foldl (fun s i =>
      (listAddlast (cells L) s (L.slab 0) (L.pageAddr i)).modPage (L.pageIdx (L.pageAddr i))
        fun _ => 0) s →
    Rep (cells L) s' (L.slab 0) ((List.range n).map L.pageAddr) ∧
    (∀ l, 0 < l → l < L.maxLineSlab → Rep (cells L) s' (L.slab l) []) ∧
    s'.page = fun _ => 0 := by
  intro n
  induction n with
  | zero =>
    rintro - s' rfl
    exact ⟨hroots 0 L.maxLineSlab_pos, fun l _ hl => hroots l hl, hpage⟩
  | succ n ih =>
    rintro hn s' rfl
    obtain ⟨hrep, hothers, hpage'⟩ := ih (by omega) _ rfl
    rw [List.range_succ, List.foldl_append, List.map_append]
    simp only [List.foldl_cons, List.foldl_nil, List.map_cons, List.map_nil]
    have hpiece : Piece L (fun _ => 0) (L.pageAddr n) n 0 := piece_of_page (by omega) rfl
    have hnew : L.pageAddr n ∉ L.slab 0 :: (List.range n).map L.pageAddr := by
      have hs := slab_end_le L.maxLineSlab_pos
      have hin := hpiece.in_heap
      simp only [List.mem_cons, List.mem_map, List.mem_range, not_or, not_exists, not_and]
      refine ⟨by omega, fun i hi he => ?_⟩
      simp only [Layout.pageAddr, pageSize] at he
      omega
    have htouch := hrep.addlast_touches hpiece.isCell hnew
    refine ⟨(hrep.addlast hpiece.isCell hnew).other fun c _ => rfl, ?_, ?_⟩
    · intro l hl0 hl
      have hlist := htouch.rep (hothers l hl0 hl) ?_ ?_
      · exact hlist.other fun c _ => rfl
      · intro c hc
        rcases List.mem_cons.mp hc with rfl | hc
        · exact hpiece.isCell
        · exact hrep.cells c hc
      · intro c hc d hd
        rw [List.mem_singleton.mp hd]
        rintro rfl
        have hs := slab_end_le hl
        simp only [List.mem_cons, List.mem_map] at hc
        rcases hc with he | he | ⟨i, -, he⟩
        · have hin := hpiece.in_heap
          omega
        · simp only [Layout.slab] at he
          omega
        · simp only [Layout.pageAddr] at he
          omega
    · have hsame := htouch _ _ fun c _ => outside_page c
      rw [Kmem.modPage_page, hsame, hpage']
      exact Function.update_eq_self _ _

theorem inv_init (L : Layout) (s : Kmem) :
    Inv L (kmemkernelInit L s) (fun _ => none) (fun _ => 0)
      (fun l => if l = 0 then (List.range L.nbPages).map L.pageAddr else []) := by
  obtain ⟨hroots, hpage⟩ := initRoots_spec L
    { mem := s.mem.fill L.kbssOrigin (L.kmb - L.kbssOrigin) 0,
      page := fun _ => 0, objects := fun _ => 0 } L.maxLineSlab (Nat.le_refl _)
  obtain ⟨hrep, hothers, hpage'⟩ := initPages_spec L hroots hpage L.nbPages (Nat.le_refl _)
    (kmemkernelInit L s) rfl
  refine ⟨⟨fun _ _ => L.maxLineSlab_pos, ?_, ?_, fun _ _ ha => absurd ha (by simp)⟩, ?_⟩
  · intro l hl
    by_cases h0 : l = 0
    · subst h0
      simpa using hrep
    · simpa [h0] using hothers l (Nat.pos_of_ne_zero h0) hl
  · intro l hl a
    by_cases h0 : l = 0
    · subst h0
      simp only [if_true, List.mem_map, List.mem_range, and_true]
      constructor
      · rintro ⟨p, hp, rfl⟩
        exact ⟨p, 0, piece_of_page hp rfl⟩
      · rintro ⟨p, k, hpiece⟩
        exact ⟨p, hpiece.page_lt, (hpiece.of_kind_zero rfl).2.symm⟩
    · simp [h0, Ne.symm h0]
  · intro p hp
    rw [Described, if_pos ⟨rfl, rfl⟩, hpage']

end

/-! ## Runs -/

/-- A free page is there if the request needs one. -/
def PageAvailable (L : Layout) (s : Kmem) (size : Nat) : Prop :=
  listIsempty (cells L) s (L.slab (L.nbline size % L.maxLineSlab)) = false ∨
    listIsempty (cells L) s (L.slab 0) = false

/-- The states reached after `kmemkernel_init`, with the live objects and the
sizes they were asked with.  Between two calls the owners of the live objects
write anything into them. -/
inductive SlabRun (L : Layout) (s₀ : Kmem) : Kmem → Live → Prop where
  | init : SlabRun L s₀ (kmemkernelInit L s₀) fun _ => none
  | kmalloc {s s' : Kmem} {live : Live} {size x : Nat} : SlabRun L s₀ s live →
      size ≤ pageSize → PageAvailable L s size → kmalloc L size s = some (x, s') →
      SlabRun L s₀ s' (Function.update live x (some size))
  | kfree {s s' : Kmem} {live : Live} {x : Nat} : SlabRun L s₀ s live →
      live x ≠ none → kfree L x s = some s' →
      SlabRun L s₀ s' (Function.update live x none)
  | write {s s' : Kmem} {live : Live} : SlabRun L s₀ s live →
      (∀ b, s'.mem b ≠ s.mem b → ∃ a n, live a = some n ∧ a ≤ b ∧ b < a + n) →
      s'.page = s.page → s'.objects = s.objects → SlabRun L s₀ s' live

/-- The size of the object at `a`, as its page tells it. -/
def objectSize (L : Layout) (s : Kmem) (a : Nat) : Nat :=
  L.objSize (s.page (L.pageIdx a)).lines.toNat

/-- What the allocator promises in a state with the given live objects. -/
structure SlabSafe (L : Layout) (s : Kmem) (live : Live) : Prop where
  aligned : ∀ a, live a ≠ none → L.cacheLineSize ∣ a
  room : ∀ a n, live a = some n → n ≤ objectSize L s a
  in_page : ∀ a, live a ≠ none → ∃ p, p < L.nbPages ∧ L.pageAddr p ≤ a ∧
    a + objectSize L s a ≤ L.pageAddr p + pageSize
  apart : ∀ a b, live a ≠ none → live b ≠ none → a ≠ b →
    a + objectSize L s a ≤ b ∨ b + objectSize L s b ≤ a
  kmalloc_ok : ∀ size, size ≤ pageSize → PageAvailable L s size →
    ∃ x s', kmalloc L size s = some (x, s') ∧ live x = none ∧
      (∀ b, x ≤ b → b < x + size → s'.mem b = 0) ∧
      ∀ a, live a ≠ none → ∀ b, a ≤ b → b < a + objectSize L s a → s'.mem b = s.mem b
  kfree_ok : ∀ x, live x ≠ none → ∃ s', kfree L x s = some s' ∧
    ∀ a, a ≠ x → live a ≠ none → ∀ b, a ≤ b → b < a + objectSize L s a → s'.mem b = s.mem b
  at_rest : (∀ a, live a = none) →
    (∃ pages, Rep (cells L) s (L.slab 0) pages ∧
      pages.Perm ((List.range L.nbPages).map L.pageAddr)) ∧
    ∀ l, 0 < l → l < L.maxLineSlab → Rep (cells L) s (L.slab l) []

section
variable {L : Layout} {s₀ s : Kmem} {live : Live} {kind : Kinds} {free : Nat → List Nat}

theorem Inv.available (h : Inv L s live kind free) {size : Nat}
    (ha : PageAvailable L s size) :
    free (L.nbline size % L.maxLineSlab) ≠ [] ∨ free 0 ≠ [] := by
  refine ha.imp ?_ ?_
  · intro he hnil
    rw [(h.rep _ (Nat.mod_lt _ L.maxLineSlab_pos)).isempty_iff.mpr hnil] at he
    exact absurd he (by decide)
  · intro he hnil
    rw [(h.rep 0 L.maxLineSlab_pos).isempty_iff.mpr hnil] at he
    exact absurd he (by decide)

theorem Inv.empty_of_unavailable (h : Inv L s live kind free) {size : Nat}
    (hno : ¬ PageAvailable L s size) :
    free (L.nbline size % L.maxLineSlab) = [] ∧ free 0 = [] := by
  unfold PageAvailable at hno
  rw [not_or, Bool.not_eq_false, Bool.not_eq_false,
    (h.rep _ (Nat.mod_lt _ L.maxLineSlab_pos)).isempty_iff,
    (h.rep 0 L.maxLineSlab_pos).isempty_iff] at hno
  exact hno

/-- Writes into live objects. -/
theorem Inv.write (h : Inv L s live kind free) {s' : Kmem}
    (hmem : ∀ b, s'.mem b ≠ s.mem b → Owned L live kind b) (hpage : s'.page = s.page) :
    Inv L s' live kind free := by
  refine ⟨h.congr_mem ?_, by rw [hpage]; exact h.described⟩
  intro l hl c hc b hlo hhi
  by_contra hne
  have hap := h.cell_apart hl hc (hmem b hne)
  omega

/-- The bytes that were asked for are those of a live object. -/
theorem Threaded.owned_asked (h : Threaded L s live kind free) {a b n : Nat}
    (ha : live a = some n) (hlo : a ≤ b) (hhi : b < a + n) : Owned L live kind b := by
  obtain ⟨p, k, hpiece, hn⟩ := h.live_piece a n ha
  exact ⟨a, p, k, hpiece, by simp [ha], hlo, by omega⟩

/-- The invariant holds along every run. -/
theorem SlabRun.inv (h : SlabRun L s₀ s live) : ∃ kind free, Inv L s live kind free := by
  induction h with
  | init => exact ⟨_, _, inv_init L s₀⟩
  | kmalloc _ hsize havail hk ih =>
    obtain ⟨kind, free, hinv⟩ := ih
    obtain ⟨x, s', kind', free', heq, -, hinv', -⟩ :=
      hinv.kmalloc_spec hsize (hinv.available havail)
    rw [heq, Option.some.injEq, Prod.mk.injEq] at hk
    obtain ⟨rfl, rfl⟩ := hk
    exact ⟨kind', free', hinv'⟩
  | kfree _ hlive hk ih =>
    obtain ⟨kind, free, hinv⟩ := ih
    obtain ⟨n, hn⟩ := Option.ne_none_iff_exists'.mp hlive
    obtain ⟨s', kind', free', heq, hinv', -⟩ := hinv.kfree_spec hn
    rw [heq, Option.some.injEq] at hk
    exact ⟨kind', free', hk ▸ hinv'⟩
  | write _ hmem hpage _ ih =>
    obtain ⟨kind, free, hinv⟩ := ih
    refine ⟨kind, free, hinv.write ?_ hpage⟩
    intro b hne
    obtain ⟨a, n, ha, hab, hbn⟩ := hmem b hne
    exact hinv.owned_asked ha hab hbn

theorem Inv.objectSize_eq (h : Inv L s live kind free) {a : Nat} (ha : live a ≠ none) :
    ∃ p k, Piece L kind a p k ∧ objectSize L s a = L.objSize (kind p) := by
  obtain ⟨n, hn⟩ := Option.ne_none_iff_exists'.mp ha
  obtain ⟨p, k, hpiece, -⟩ := h.live_piece a n hn
  refine ⟨p, k, hpiece, ?_⟩
  rw [objectSize, hpiece.pageIdx, (h.described_live hpiece ha).2.1]

theorem Inv.owned (h : Inv L s live kind free) {live' : Live} {a b : Nat} (ha : live a ≠ none)
    (ha' : live' a ≠ none) (hlo : a ≤ b) (hhi : b < a + objectSize L s a) :
    Owned L live' kind b := by
  obtain ⟨p, k, hpiece, hsize⟩ := h.objectSize_eq ha
  exact ⟨a, p, k, hpiece, ha', hlo, by omega⟩

/-- Without live objects no page is cut, and the free pages are all pages. -/
theorem Inv.at_rest (h : Inv L s live kind free) (hnone : ∀ a, live a = none) :
    (∃ pages, Rep (cells L) s (L.slab 0) pages ∧
      pages.Perm ((List.range L.nbPages).map L.pageAddr)) ∧
    ∀ l, 0 < l → l < L.maxLineSlab → Rep (cells L) s (L.slab l) [] := by
  have hkind : ∀ p, p < L.nbPages → kind p = 0 := by
    intro p hp
    by_contra h0
    have hdesc := h.described p hp
    rw [Described, if_neg fun hc => h0 hc.1] at hdesc
    have hcount := (hdesc.2.2 h0).2
    rw [liveCount, Finset.filter_false_of_mem (by simp [hnone])] at hcount
    simp at hcount
  constructor
  · refine ⟨free 0, h.rep 0 L.maxLineSlab_pos, ?_⟩
    refine (List.perm_ext_iff_of_nodup (h.rep 0 L.maxLineSlab_pos).nodup ?_).mpr ?_
    · refine List.Nodup.map ?_ List.nodup_range
      intro i j hij
      simp only [Layout.pageAddr, pageSize] at hij
      omega
    · intro a
      rw [h.mem_free 0 L.maxLineSlab_pos a, List.mem_map]
      constructor
      · rintro ⟨p, k, hpiece, h0, -⟩
        exact ⟨p, List.mem_range.mpr hpiece.page_lt, (hpiece.of_kind_zero h0).2.symm⟩
      · rintro ⟨p, hp, rfl⟩
        have hp' := List.mem_range.mp hp
        exact ⟨p, 0, piece_of_page hp' (hkind p hp'), hkind p hp', hnone _⟩
  · intro l hl0 hl
    have hrep := h.rep l hl
    have hempty : free l = [] := by
      refine List.eq_nil_iff_forall_not_mem.mpr fun a ha => ?_
      obtain ⟨p, k, hpiece, hkl, -⟩ := (h.mem_free l hl a).mp ha
      rw [hkind p hpiece.page_lt] at hkl
      omega
    rwa [hempty] at hrep

/-- In every reachable state the live objects are aligned, apart and inside a
page; requests and releases succeed without touching other objects, and without
live objects all pages are free. -/
theorem slabRun_safe (h : SlabRun L s₀ s live) : SlabSafe L s live := by
  obtain ⟨kind, free, hinv⟩ := h.inv
  constructor
  · intro a ha
    obtain ⟨p, k, hpiece, -⟩ := hinv.objectSize_eq ha
    exact hpiece.line_dvd
  · intro a n ha
    obtain ⟨p, k, hpiece, hn⟩ := hinv.live_piece a n ha
    obtain ⟨p', k', hpiece', hsize⟩ := hinv.objectSize_eq (a := a) (by simp [ha])
    rw [hsize, hpiece'.page_eq hpiece]
    exact hn
  · intro a ha
    obtain ⟨p, k, hpiece, hsize⟩ := hinv.objectSize_eq ha
    rw [hsize]
    exact ⟨p, hpiece.page_lt, hpiece.lo, hpiece.hi⟩
  · intro a b ha hb hne
    obtain ⟨p, k, hpiece, hsize⟩ := hinv.objectSize_eq ha
    obtain ⟨q, j, hpiece', hsize'⟩ := hinv.objectSize_eq hb
    rw [hsize, hsize']
    exact hpiece.apart hpiece' hne
  · intro size hsize havail
    obtain ⟨x, s', -, -, heq, hdead, -, -, hzero, hmem⟩ :=
      hinv.kmalloc_spec hsize (hinv.available havail)
    exact ⟨x, s', heq, hdead, hzero, fun a ha b hlo hhi => hmem b (hinv.owned ha ha hlo hhi)⟩
  · intro x hx
    obtain ⟨n, hn⟩ := Option.ne_none_iff_exists'.mp hx
    obtain ⟨s', -, -, heq, -, -, hmem⟩ := hinv.kfree_spec hn
    refine ⟨s', heq, fun a hax ha b hlo hhi => hmem b (hinv.owned ha ?_ hlo hhi)⟩
    rwa [Function.update_of_ne hax]
  · exact hinv.at_rest

end

/-- A heap of two pages with lines of 16 bytes. -/
def twoPages : Layout where
  lineShift := 4
  kbssOrigin := 0
  slabBase := 0
  kmb := 4096
  nbPages := 2
  line_min := by decide
  line_max := by decide
  origin_le := by decide
  slab_le := by decide
  kmb_aligned := by decide
  pages_pos := by decide
  pages_le := by decide
  kme_lt := by decide

theorem four_le_pageShift : 4 ≤ 12 := by decide

theorem onePage_le : 1 * pageSize ≤ 256 * 2 ^ 20 := by decide

theorem onePage_lt : 4096 + 1 * pageSize < 2 ^ 32 := by decide

/-- A memory that has been used before. -/
def usedMem : Kmem where
  mem := fun b => BitVec.ofNat 8 b
  page := fun _ => 5
  objects := fun _ => 7

/-- The first request on `twoPages`. -/
theorem slabRun_safe_twoPages :
    ∃ x s', SlabRun twoPages usedMem s' (Function.update (fun _ => none) x (some 20)) ∧
      SlabSafe twoPages s' (Function.update (fun _ => none) x (some 20)) := by
  have hstart : SlabRun twoPages usedMem (kmemkernelInit twoPages usedMem) fun _ => none := .init
  have hinit := slabRun_safe hstart
  have havail : PageAvailable twoPages (kmemkernelInit twoPages usedMem) 20 := by
    obtain ⟨⟨pages, hrep, hperm⟩, -⟩ := hinit.at_rest fun _ => rfl
    refine .inr ?_
    rw [← Bool.not_eq_true, hrep.isempty_iff]
    rintro rfl
    exact absurd hperm.length_eq (by simp [twoPages])
  obtain ⟨x, s', heq, -⟩ := hinit.kmalloc_ok 20 (by decide) havail
  have hrun := hstart.kmalloc (by decide) havail heq
  exact ⟨x, s', hrun, slabRun_safe hrun⟩

end Ko6.Kernel
