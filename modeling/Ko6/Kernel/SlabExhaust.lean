import Ko6.Kernel.SlabRuns

set_option autoImplicit false

/-!
# Kernel: `kmalloc` when no page is free

`kmalloc` panics for want of a page where it is asked for a whole page, and where it
needs one to cut.  But it takes the list from the size rounded up to lines: a request of
a few bytes less than a page is served from the free pages as well, and these have not
been looked at.  When there are none, the object is `NULL`.
-/

namespace Ko6.Kernel

open Ko6.Lib Ko6.Common

/-- No page is free, and the request is less than a page but takes all its lines. -/
def Unseen (L : Layout) (s : Kmem) (size : Nat) : Prop :=
  listIsempty (cells L) s (L.slab 0) = true ∧ size < pageSize ∧
    pageSize < size + L.cacheLineSize

/-- `kmalloc` panics, or returns a free object of the heap. -/
def Detects (L : Layout) (s : Kmem) (live : Live) (size : Nat) : Prop :=
  ∀ x s', kmalloc L size s = some (x, s') →
    x ≠ 0 ∧ L.kmb ≤ x ∧ x + size ≤ L.kme ∧ live x = none

/-- The states reached after `kmemkernel_init` by requests of any size, as long as the
missing page is seen. -/
inductive ExhaustRun (L : Layout) (s₀ : Kmem) : Kmem → Live → Prop where
  | init : ExhaustRun L s₀ (kmemkernelInit L s₀) fun _ => none
  | kmalloc {s s' : Kmem} {live : Live} {size x : Nat} : ExhaustRun L s₀ s live →
      ¬ Unseen L s size → kmalloc L size s = some (x, s') →
      ExhaustRun L s₀ s' (Function.update live x (some size))
  | kfree {s s' : Kmem} {live : Live} {x : Nat} : ExhaustRun L s₀ s live →
      live x ≠ none → kfree L x s = some s' →
      ExhaustRun L s₀ s' (Function.update live x none)
  | write {s s' : Kmem} {live : Live} : ExhaustRun L s₀ s live →
      (∀ b, s'.mem b ≠ s.mem b → ∃ a n, live a = some n ∧ a ≤ b ∧ b < a + n) →
      s'.page = s.page → s'.objects = s.objects → ExhaustRun L s₀ s' live

section
variable {L : Layout} {s₀ s s' : Kmem} {live : Live} {kind : Kinds} {free : Nat → List Nat}
  {size x : Nat}

/-- The requests that take all the lines of a page. -/
theorem Layout.nbline_eq_iff (hsize : size ≤ pageSize) :
    L.nbline size = L.maxLineSlab ↔ pageSize < size + L.cacheLineSize := by
  have hpos := L.line_pos
  have hmax := L.maxLineSlab_mul
  have hle := (L.nbline_spec hsize).1
  have hlt : L.nbline size < L.maxLineSlab ↔ size + L.cacheLineSize - 1 < pageSize := by
    rw [Layout.nbline, Nat.div_lt_iff_lt_mul hpos, hmax]
  omega

/-- With neither an object nor a page, `kmalloc` panics or takes `NULL`. -/
theorem Inv.kmalloc_empty (h : Inv L s live kind free) (hsize : size ≤ pageSize)
    (hempty : free (L.nbline size % L.maxLineSlab) = []) (hpages : free 0 = []) :
    (¬ Unseen L s size ∧ kmalloc L size s = none) ∨
      Unseen L s size ∧ ∃ s', kmalloc L size s = some (0, s') := by
  have h0 := L.maxLineSlab_pos
  have hlist := (h.rep 0 h0).isempty_iff.mpr hpages
  have hiff := L.nbline_eq_iff hsize
  rcases Nat.eq_or_lt_of_le hsize with rfl | hlt
  · -- a whole page
    refine .inl ⟨fun hu => Nat.lt_irrefl _ hu.2.1, ?_⟩
    simp only [kmalloc, kmallocStep, lt_irrefl, if_false, hlist, true_and, if_true]
  rcases Nat.eq_or_lt_of_le (L.nbline_spec hsize).1 with hmax | hless
  · -- the lines of a whole page
    refine .inr ⟨⟨hlist, hlt, hiff.mp hmax⟩, ?_⟩
    have hwhole : ¬ (size = pageSize ∧ listIsempty (cells L) s (L.slab 0) = true) :=
      fun hc => Nat.ne_of_lt hlt hc.1
    have hcut : ¬ (pageSize ≠ pageSize ∧
        listIsempty (cells L) s (L.slab L.maxLineSlab) = true) := fun hc => hc.1 rfl
    simp only [kmalloc, kmallocStep, if_neg (Nat.not_lt.mpr hsize), if_neg hwhole, hmax,
      L.maxLineSlab_mul, if_neg hcut, Nat.mod_self]
    have hget : listGetfirst (cells L) s (L.slab 0) = (none, s) := by
      have hrep := h.rep 0 h0
      rw [hpages] at hrep
      exact hrep.getfirst_nil
    simp only [takeFirst, hget, Option.getD_none]
    exact ⟨_, rfl⟩
  · -- a page to cut
    refine .inl ⟨fun hu => Nat.ne_of_lt hless (hiff.mpr hu.2.2), ?_⟩
    rw [Nat.mod_eq_of_lt hless] at hempty
    have hobj := (h.rep _ hless).isempty_iff.mpr hempty
    have hne : L.nbline size * L.cacheLineSize ≠ pageSize := by
      rw [← L.maxLineSlab_mul]
      exact fun he => Nat.ne_of_lt hless (Nat.eq_of_mul_eq_mul_right L.line_pos he)
    have hpage : kmallocStep L (fun _ _ => none) pageSize s = none := by
      simp only [kmallocStep, lt_irrefl, if_false, hlist, true_and, if_true]
    have hwhole : ¬ (size = pageSize ∧ listIsempty (cells L) s (L.slab 0) = true) :=
      fun hc => Nat.ne_of_lt hlt hc.1
    have hstep : ∀ self : Nat → Kmem → Option (Nat × Kmem), self pageSize s = none →
        kmallocStep L self size s = none := by
      intro self hself
      simp only [kmallocStep, if_neg (Nat.not_lt.mpr hsize), if_neg hwhole,
        if_pos (And.intro hne hobj), refill, hself, Option.bind_eq_bind, Option.bind_none]
    exact hstep _ hpage

/-- A request that does not panic, and whose missing page would be seen, has its page. -/
theorem Inv.available_of_not_unseen (h : Inv L s live kind free) (hu : ¬ Unseen L s size)
    (hk : kmalloc L size s = some (x, s')) : size ≤ pageSize ∧ PageAvailable L s size := by
  have hsize : size ≤ pageSize := by
    by_contra hgt
    rw [kmalloc, kmallocStep, if_pos (Nat.not_le.mp hgt)] at hk
    exact absurd hk (by simp)
  refine ⟨hsize, ?_⟩
  by_contra hno
  obtain ⟨hempty, hpages⟩ := h.empty_of_unavailable hno
  rcases h.kmalloc_empty hsize hempty hpages with ⟨-, hnone⟩ | ⟨hseen, -⟩
  · rw [hnone] at hk
    exact absurd hk (by simp)
  · exact hu hseen

/-- With an object or a page, no page is missing. -/
theorem PageAvailable.not_unseen (ha : PageAvailable L s size) (hsize : size ≤ pageSize) :
    ¬ Unseen L s size := by
  rintro ⟨hempty, -, hgt⟩
  rw [PageAvailable, (L.nbline_eq_iff hsize).mpr hgt, Nat.mod_self, hempty] at ha
  simp at ha

/-- The object that `kmalloc` returns is in the heap. -/
theorem Inv.kmalloc_object (h : Inv L s live kind free) (hsize : size ≤ pageSize)
    (ha : PageAvailable L s size) :
    ∃ x s', kmalloc L size s = some (x, s') ∧ live x = none ∧ x ≠ 0 ∧ L.kmb ≤ x ∧
      x + size ≤ L.kme ∧ size ≤ objectSize L s' x ∧
      ∀ b, x ≤ b → b < x + size → s'.mem b = 0 := by
  obtain ⟨x, s', kind', free', heq, hdead, hinv', -, hzero, -⟩ :=
    h.kmalloc_spec hsize (h.available ha)
  obtain ⟨p, k, hpiece, hroom⟩ := hinv'.live_piece x size (Function.update_self ..)
  have hin := hpiece.in_heap
  have hslab := L.slab_le
  have hobj : objectSize L s' x = L.objSize (kind' p) := by
    obtain ⟨q, j, hpiece', hobj⟩ := hinv'.objectSize_eq (a := x) (by simp)
    rw [hobj, hpiece'.page_eq hpiece]
  exact ⟨x, s', heq, hdead, by omega, hin.1, by omega, by omega, hzero⟩

/-- The states reached are those of the runs whose requests have their page. -/
theorem ExhaustRun.slabRun (h : ExhaustRun L s₀ s live) : SlabRun L s₀ s live := by
  induction h with
  | init => exact .init
  | kmalloc _ hu hk ih =>
    obtain ⟨kind, free, hinv⟩ := ih.inv
    obtain ⟨hsize, havail⟩ := hinv.available_of_not_unseen hu hk
    exact ih.kmalloc hsize havail hk
  | kfree _ hlive hk ih => exact ih.kfree hlive hk
  | write _ hmem hpage hobj ih => exact ih.write hmem hpage hobj

/-- In every state reached, `kmalloc` of a size up to a page panics or returns a free
object of the heap exactly when the missing page is seen. -/
theorem kmalloc_detects_iff (h : ExhaustRun L s₀ s live) (hsize : size ≤ pageSize) :
    Detects L s live size ↔ ¬ Unseen L s size := by
  obtain ⟨kind, free, hinv⟩ := h.slabRun.inv
  by_cases havail : PageAvailable L s size
  · obtain ⟨x, s', heq, hdead, h0, hlo, hhi, -⟩ := hinv.kmalloc_object hsize havail
    refine iff_of_true ?_ (havail.not_unseen hsize)
    intro y t hk
    rw [heq, Option.some.injEq, Prod.mk.injEq] at hk
    obtain ⟨rfl, rfl⟩ := hk
    exact ⟨h0, hlo, hhi, hdead⟩
  · obtain ⟨hempty, hpages⟩ := hinv.empty_of_unavailable havail
    rcases hinv.kmalloc_empty hsize hempty hpages with ⟨hseen, hnone⟩ | ⟨hunseen, s', hnull⟩
    · refine iff_of_true (fun x s' hk => ?_) hseen
      rw [hnone] at hk
      exact absurd hk (by simp)
    · exact iff_of_false (fun hd => (hd 0 s' hnull).1 rfl) fun hseen => hseen hunseen

end

/-! ## A heap of one page -/

/-- A heap of one page with lines of 16 bytes. -/
def tinyHeap : Layout where
  lineShift := 4
  kbssOrigin := 0
  slabBase := 0
  kmb := 4096
  nbPages := 1
  line_min := twoPages.line_min
  line_max := twoPages.line_max
  origin_le := twoPages.origin_le
  slab_le := twoPages.slab_le
  kmb_aligned := twoPages.kmb_aligned
  pages_pos := Nat.one_pos
  pages_le := onePage_le
  kme_lt := onePage_lt

/-- The only page of the heap is given out. -/
theorem tinyHeap_exhausted : ∃ s live, ExhaustRun tinyHeap usedMem s live ∧
    listIsempty (cells tinyHeap) s (tinyHeap.slab 0) = true := by
  have hstart : ExhaustRun tinyHeap usedMem (kmemkernelInit tinyHeap usedMem) fun _ => none := .init
  have hinit := inv_init tinyHeap usedMem
  rcases hinit.kmalloc_page with ⟨hnil, -⟩ | ⟨p, s', rest, hp, -, -, hk, hinv, -⟩
  · exact absurd hnil (by simp [tinyHeap])
  refine ⟨s', _, hstart.kmalloc (fun hu => absurd hu.2.1 (by decide)) hk, ?_⟩
  refine (hinv.rep 0 (by decide)).isempty_iff.mpr (List.eq_nil_iff_forall_not_mem.mpr ?_)
  intro a ha
  obtain ⟨q, k, hpiece, hkind, hdead⟩ := (hinv.mem_free 0 (by decide) a).mp ha
  have hq : q = p := by
    have hlt := hpiece.page_lt
    simp only [tinyHeap] at hp hlt
    omega
  rw [(hpiece.of_kind_zero hkind).2, hq, Function.update_self] at hdead
  exact absurd hdead (by simp)

/-- `kmalloc` of 20 bytes panics there, and that of a whole page too. -/
theorem kmalloc_detects_tinyHeap : ∃ s live, ExhaustRun tinyHeap usedMem s live ∧
    listIsempty (cells tinyHeap) s (tinyHeap.slab 0) = true ∧
    Detects tinyHeap s live 20 ∧ Detects tinyHeap s live 4096 := by
  obtain ⟨s, live, hrun, hempty⟩ := tinyHeap_exhausted
  refine ⟨s, live, hrun, hempty, ?_, ?_⟩
  · refine (kmalloc_detects_iff hrun (by decide)).mpr fun hu => ?_
    exact absurd hu.2.2 (by decide)
  · refine (kmalloc_detects_iff hrun (by decide)).mpr fun hu => ?_
    exact absurd hu.2.1 (by decide)

/-- `kmalloc` of 4090 bytes returns `NULL` there. -/
theorem kmalloc_takes_null : ∃ s live, ExhaustRun tinyHeap usedMem s live ∧
    (∃ s', kmalloc tinyHeap 4090 s = some (0, s')) ∧ ¬ Detects tinyHeap s live 4090 := by
  obtain ⟨s, live, hrun, hempty⟩ := tinyHeap_exhausted
  obtain ⟨kind, free, hinv⟩ := hrun.slabRun.inv
  have hmod : tinyHeap.nbline 4090 % tinyHeap.maxLineSlab = 0 := by decide
  have hpages : free 0 = [] := (hinv.rep 0 (by decide)).isempty_iff.mp hempty
  have hunseen : Unseen tinyHeap s 4090 := ⟨hempty, by decide, by decide⟩
  rcases hinv.kmalloc_empty (show 4090 ≤ pageSize by decide) (by rw [hmod, hpages]) hpages with
    ⟨hseen, -⟩ | ⟨-, s', hnull⟩
  · exact absurd hunseen hseen
  · exact ⟨s, live, hrun, ⟨s', hnull⟩, fun hd => (hd 0 s' hnull).1 rfl⟩

end Ko6.Kernel
