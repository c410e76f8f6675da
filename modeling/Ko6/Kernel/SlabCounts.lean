import Ko6.Kernel.SlabRuns
import Mathlib.Data.Set.Card

set_option autoImplicit false

/-!
# Kernel: the counters of the slab allocator

A page is among the free pages exactly when it has no live object: the 8 bits of `nbused`
hold the number of its objects modulo 256, and the decrement of `kfree` comes to 0 for the
last one only, since at most 256 are live and one has just gone.  `ObjectsThisSize[]`
counts the live objects of each number of lines, and at index 0 the pages given out whole
and the pages cut into objects.
-/

namespace Ko6.Kernel

open Ko6.Lib Ko6.Common

/-- The live objects of `l` lines, where a whole page counts as 0 lines. -/
def objectsOf (L : Layout) (live : Live) (l : Nat) : Set Nat :=
  {a | ∃ n, live a = some n ∧ L.nbline n % L.maxLineSlab = l}

/-- The pages that live objects have been cut from. -/
def cutPages (L : Layout) (live : Live) : Set Nat :=
  {p | ∃ a l, a ∈ objectsOf L live l ∧ l ≠ 0 ∧ L.pageIdx a = p}

/-- Page `p` is in the list `Slab[0]`. -/
def Listed (L : Layout) (s : Kmem) (p : Nat) : Prop :=
  ∃ pages, Rep (cells L) s (L.slab 0) pages ∧ L.pageAddr p ∈ pages

/-- What the allocator's books say in a state with the given live objects. -/
structure SlabCounted (L : Layout) (s : Kmem) (live : Live) : Prop where
  listed : ∀ p, p < L.nbPages → (Listed L s p ↔ ∀ a, live a ≠ none → L.pageIdx a ≠ p)
  kmalloc_listed : ∀ size, size ≤ pageSize → PageAvailable L s size →
    ∃ x s', kmalloc L size s = some (x, s') ∧ ∀ p, p < L.nbPages →
      (Listed L s' p ↔ Listed L s p ∧ p ≠ L.pageIdx x)
  kfree_listed : ∀ x, live x ≠ none → ∃ s', kfree L x s = some s' ∧ ∀ p, p < L.nbPages →
    (Listed L s' p ↔ Listed L s p ∨
      p = L.pageIdx x ∧ ∀ a, live a ≠ none → L.pageIdx a = p → a = x)
  objects : ∀ l, 0 < l → l < L.maxLineSlab →
    (s.objects l).toNat = (objectsOf L live l).ncard
  pages : (s.objects 0).toNat = (objectsOf L live 0).ncard + (cutPages L live).ncard

/-- The counters of the invariant; a page of kind 0 is not cut. -/
structure CountInv (L : Layout) (s : Kmem) (live : Live) (kind : Kinds)
    (free : Nat → List Nat) : Prop extends Inv L s live kind free where
  lines : ∀ a n p k, live a = some n → Piece L kind a p k →
    L.nbline n % L.maxLineSlab = kind p
  objects : ∀ l, l ≠ 0 → s.objects l = BitVec.ofNat 32 (objectsOf L live l).ncard
  pages : s.objects 0 =
    BitVec.ofNat 32 ((objectsOf L live 0).ncard + {p | p < L.nbPages ∧ kind p ≠ 0}.ncard)

section
variable {L : Layout} {s₀ s s' : Kmem} {live : Live} {kind kind' : Kinds}
  {free free' : Nat → List Nat} {objects' : Nat → BitVec 32} {a p k l x n : Nat}

/-! ## Counting -/

theorem objectsOf_take (hdead : live x = none) :
    objectsOf L (Function.update live x (some n)) l =
      if L.nbline n % L.maxLineSlab = l then insert x (objectsOf L live l)
      else objectsOf L live l := by
  ext a
  by_cases ha : a = x
  · subst ha
    have hnot : a ∉ objectsOf L live l := by
      rintro ⟨m, hm, -⟩
      rw [hdead] at hm
      exact absurd hm (by simp)
    split
    · rename_i hl
      exact iff_of_true ⟨n, Function.update_self .., hl⟩ (Set.mem_insert ..)
    · rename_i hl
      refine iff_of_false ?_ hnot
      rintro ⟨m, hm, hlm⟩
      rw [Function.update_self, Option.some.injEq] at hm
      exact hl (hm ▸ hlm)
  · have hsame : a ∈ objectsOf L (Function.update live x (some n)) l ↔ a ∈ objectsOf L live l := by
      unfold objectsOf
      simp only [Set.mem_ofPred_eq, Function.update_of_ne ha]
    rw [hsame]
    split
    · exact (Set.mem_insert_iff.trans (or_iff_right ha)).symm
    · exact Iff.rfl

/-- The live objects lie in the heap. -/
theorem Threaded.live_finite (h : Threaded L s live kind free) :
    {a | live a ≠ none}.Finite := by
  refine (Set.finite_Iio L.kme).subset fun a ha => ?_
  obtain ⟨m, hm⟩ := Option.ne_none_iff_exists'.mp ha
  obtain ⟨p, k, hpiece, -⟩ := h.live_piece a m hm
  have hin := hpiece.in_heap
  have hpos := L.objSize_pos (kind p)
  exact Set.mem_Iio.mpr (by omega)

theorem Threaded.objectsOf_finite (h : Threaded L s live kind free) :
    (objectsOf L live l).Finite :=
  h.live_finite.subset fun a ⟨m, hm, _⟩ => by
    show live a ≠ none
    rw [hm]
    simp

/-- An object more. -/
theorem Threaded.ncard_take (h : Threaded L s live kind free) (hdead : live x = none) :
    (objectsOf L (Function.update live x (some n)) l).ncard = (objectsOf L live l).ncard +
      if L.nbline n % L.maxLineSlab = l then 1 else 0 := by
  rw [objectsOf_take hdead]
  split
  · refine Set.ncard_insert_of_notMem ?_ h.objectsOf_finite
    rintro ⟨m, hm, -⟩
    rw [hdead] at hm
    exact absurd hm (by simp)
  · rfl

/-- An object less. -/
theorem Threaded.ncard_give (h : Threaded L s' (Function.update live x none) kind free)
    (hlive : live x = some n) :
    (objectsOf L live l).ncard = (objectsOf L (Function.update live x none) l).ncard +
      if L.nbline n % L.maxLineSlab = l then 1 else 0 := by
  rw [← h.ncard_take (Function.update_self ..), Function.update_idem, ← hlive,
    Function.update_eq_self]

/-- A cut page more. -/
theorem ncard_kinds (hp : p < L.nbPages) (hkind : kind p = 0) (hl : l ≠ 0) :
    {q | q < L.nbPages ∧ Function.update kind p l q ≠ 0}.ncard =
      {q | q < L.nbPages ∧ kind q ≠ 0}.ncard + 1 := by
  have hset : {q | q < L.nbPages ∧ Function.update kind p l q ≠ 0} =
      insert p {q | q < L.nbPages ∧ kind q ≠ 0} := by
    ext q
    by_cases hqp : q = p
    · subst hqp
      simp [hp, hl]
    · simp [hqp]
  rw [hset]
  refine Set.ncard_insert_of_notMem (fun hmem => hmem.2 hkind) ?_
  exact (Set.finite_Iio L.nbPages).subset fun q hq => hq.1

theorem ofNat_succ (m : Nat) : BitVec.ofNat 32 (m + 1) = BitVec.ofNat 32 m + 1 :=
  BitVec.ofNat_add m 1

theorem ofNat_succ_sub_one (m : Nat) : BitVec.ofNat 32 (m + 1) - 1 = BitVec.ofNat 32 m := by
  rw [ofNat_succ]
  exact BitVec.add_sub_cancel _ _

/-! ## Steps -/

/-- A live object has been cut from a page of the same kind before and after. -/
theorem Threaded.piece_of_update {m : Nat} (h : Threaded L s live kind free)
    (hlive : live a = some m)
    (hp : ∀ b k, Piece L kind b p k → live b = none) {q : Nat}
    (ha : Piece L (Function.update kind p l) a q k) :
    Piece L kind a q k ∧ Function.update kind p l q = kind q := by
  have hqp : q ≠ p := by
    rintro rfl
    obtain ⟨r, j, hpiece, -⟩ := h.live_piece a m hlive
    obtain rfl : r = q := hpiece.pageIdx.symm.trans ha.pageIdx
    rw [hp a j hpiece] at hlive
    exact absurd hlive (by simp)
  exact ⟨(Threaded.piece_update_iff hqp).mp ha, Function.update_of_ne hqp ..⟩

/-- `kmalloc` keeps the counters. -/
theorem CountInv.serves (h : CountInv L s live kind free) (hdead : live x = none)
    (hinv : Inv L s' (Function.update live x (some n)) kind' free')
    (hs : Serves L live kind s.objects x (L.nbline n % L.maxLineSlab) kind' s'.objects) :
    CountInv L s' (Function.update live x (some n)) kind' free' := by
  have hcount : ∀ l, (objectsOf L (Function.update live x (some n)) l).ncard =
      (objectsOf L live l).ncard + if L.nbline n % L.maxLineSlab = l then 1 else 0 :=
    fun l => h.ncard_take hdead
  obtain ⟨l, hl⟩ : ∃ l, L.nbline n % L.maxLineSlab = l := ⟨_, rfl⟩
  rw [hl] at hs hcount
  generalize ho : s'.objects = o at hs
  cases hs with
  | @take p k hpiece hkind =>
    refine ⟨hinv, fun a m q j ha hq => ?_, fun i hi => ?_, ?_⟩
    · by_cases hax : a = x
      · subst hax
        rw [Function.update_self, Option.some.injEq] at ha
        rw [← ha, hl, ← hkind, hpiece.page_eq hq]
      · rw [Function.update_of_ne hax] at ha
        exact h.lines a m q j ha hq
    · rw [ho, hcount]
      by_cases hil : i = l
      · subst hil
        rw [Function.update_self, if_pos rfl, ofNat_succ, h.objects i hi]
      · rw [Function.update_of_ne hil, if_neg (Ne.symm hil), Nat.add_zero, h.objects i hi]
    · rw [ho, hcount]
      by_cases h0 : l = 0
      · rw [h0, Function.update_self, if_pos rfl, h.pages, Nat.add_right_comm, ofNat_succ]
      · rw [Function.update_of_ne (Ne.symm h0), if_neg h0, Nat.add_zero, h.pages]
  | @cut p k hl0 hkind hfree hpiece =>
    have hno : ∀ b k, Piece L kind b p k → live b = none := by
      intro b k hb
      rw [(hb.of_kind_zero hkind).2, hfree]
    refine ⟨hinv, fun a m q j ha hq => ?_, fun i hi => ?_, ?_⟩
    · by_cases hax : a = x
      · subst hax
        rw [Function.update_self, Option.some.injEq] at ha
        rw [← ha, hl, hq.page_eq hpiece, Function.update_self]
      · rw [Function.update_of_ne hax] at ha
        obtain ⟨hq', hsame⟩ := h.piece_of_update ha hno hq
        rw [hsame]
        exact h.lines a m q j ha hq'
    · rw [ho, hcount]
      by_cases hil : i = l
      · subst hil
        rw [Function.update_self, if_pos rfl, ofNat_succ, h.objects i hi]
      · rw [Function.update_of_ne hil, Function.update_of_ne hi, if_neg (Ne.symm hil),
          Nat.add_zero, h.objects i hi]
    · rw [ho, hcount, Function.update_of_ne (Ne.symm hl0), Function.update_self, if_neg hl0,
        Nat.add_zero, h.pages, ncard_kinds hpiece.page_lt hkind hl0, ← Nat.add_assoc,
        ofNat_succ]

/-- `kfree` keeps the counters. -/
theorem CountInv.takesBack (h : CountInv L s live kind free) (hlive : live x = some n)
    (hinv : Inv L s' (Function.update live x none) kind' free')
    (hs : TakesBack L live kind s.objects x kind' s'.objects) :
    CountInv L s' (Function.update live x none) kind' free' := by
  have hcount : ∀ l, (objectsOf L live l).ncard =
      (objectsOf L (Function.update live x none) l).ncard +
        if L.nbline n % L.maxLineSlab = l then 1 else 0 := fun l => hinv.ncard_give hlive
  have hother : ∀ {a m}, Function.update live x none a = some m → live a = some m := by
    intro a m ha
    by_cases hax : a = x
    · subst hax
      rw [Function.update_self] at ha
      exact absurd ha (by simp)
    · rwa [Function.update_of_ne hax] at ha
  have hobjects : ∀ {p k}, Piece L kind x p k → ∀ i, i ≠ 0 →
      Function.update s.objects (kind p) (s.objects (kind p) - 1) i =
        BitVec.ofNat 32 (objectsOf L (Function.update live x none) i).ncard := by
    intro p k hpiece i hi
    have hc := hcount i
    rw [h.lines x n p k hlive hpiece] at hc
    by_cases hil : i = kind p
    · subst hil
      rw [if_pos rfl] at hc
      rw [Function.update_self, h.objects _ hi, hc, ofNat_succ_sub_one]
    · rw [if_neg (Ne.symm hil), Nat.add_zero] at hc
      rw [Function.update_of_ne hil, h.objects i hi, hc]
  generalize ho : s'.objects = o at hs
  cases hs with
  | @give p k hpiece =>
    refine ⟨hinv, fun a m q j ha hq => h.lines a m q j (hother ha) hq, fun i hi => ?_, ?_⟩
    · rw [ho]
      exact hobjects hpiece i hi
    · have hc := hcount 0
      rw [h.lines x n p k hlive hpiece] at hc
      rw [ho]
      by_cases h0 : kind p = 0
      · rw [if_pos h0] at hc
        rw [h0, Function.update_self, h.pages, hc, Nat.add_right_comm, ofNat_succ_sub_one]
      · rw [if_neg h0, Nat.add_zero] at hc
        rw [Function.update_of_ne (Ne.symm h0), h.pages, hc]
  | @reclaim p k hpiece h0 hdead =>
    refine ⟨hinv, fun a m q j ha hq => ?_, fun i hi => ?_, ?_⟩
    · have hqp : q ≠ p := by
        rintro rfl
        obtain ⟨r, i, hr, -⟩ := h.live_piece a m (hother ha)
        obtain rfl : r = q := hr.pageIdx.symm.trans hq.pageIdx
        rw [hdead a i hr] at ha
        exact absurd ha (by simp)
      rw [Function.update_of_ne hqp]
      exact h.lines a m q j (hother ha) ((Threaded.piece_update_iff hqp).mp hq)
    · rw [ho, Function.update_of_ne hi]
      exact hobjects hpiece i hi
    · have hc := hcount 0
      rw [h.lines x n p k hlive hpiece, if_neg h0, Nat.add_zero] at hc
      have hwhole : Function.update kind p 0 p = 0 := Function.update_self ..
      have hkinds := ncard_kinds hpiece.page_lt hwhole h0
      rw [Function.update_idem, Function.update_eq_self] at hkinds
      rw [ho, Function.update_self, h.pages, hc, hkinds, ← Nat.add_assoc, ofNat_succ_sub_one]

/-! ## Runs -/

/-- `kmemkernel_init` sets the counters to 0. -/
theorem kmemkernelInit_objects (L : Layout) (s : Kmem) :
    (kmemkernelInit L s).objects = fun _ => 0 := by
  have hkeeps : ∀ (body : Kmem → Nat → Kmem), (∀ s i, (body s i).objects = s.objects) →
      ∀ (is : List Nat) (s : Kmem), (is.foldl body s).objects = s.objects := by
    intro body hbody is
    induction is with
    | nil => exact fun _ => rfl
    | cons i is ih => exact fun s => (ih (body s i)).trans (hbody s i)
  simp only [kmemkernelInit]
  rw [hkeeps, hkeeps]
  · exact fun _ _ => rfl
  · exact fun _ _ => rfl

/-- The counters hold along every run. -/
theorem SlabRun.countInv (h : SlabRun L s₀ s live) : ∃ kind free, CountInv L s live kind free := by
  induction h with
  | init =>
    have hnone : ∀ l, objectsOf L (fun _ => none) l = ∅ := by
      intro l
      refine Set.eq_empty_iff_forall_notMem.mpr fun a ⟨m, hm, _⟩ => ?_
      exact absurd hm (by simp)
    refine ⟨_, _, inv_init L s₀, fun _ _ _ _ ha => absurd ha (by simp), fun l _ => ?_, ?_⟩
    · rw [hnone, Set.ncard_empty, kmemkernelInit_objects]
      rfl
    · have hcut : {p | p < L.nbPages ∧ (0 : Nat) ≠ 0} = ∅ :=
        Set.eq_empty_iff_forall_notMem.mpr fun p hp => hp.2 rfl
      rw [hnone, hcut, Set.ncard_empty, kmemkernelInit_objects]
      rfl
  | kmalloc _ hsize havail hk ih =>
    obtain ⟨kind, free, hinv⟩ := ih
    obtain ⟨x, s', kind', free', heq, hdead, hinv', hserves, -⟩ :=
      hinv.kmalloc_spec hsize (hinv.available havail)
    rw [heq, Option.some.injEq, Prod.mk.injEq] at hk
    obtain ⟨rfl, rfl⟩ := hk
    exact ⟨kind', free', hinv.serves hdead hinv' hserves⟩
  | kfree _ hlive hk ih =>
    obtain ⟨kind, free, hinv⟩ := ih
    obtain ⟨n, hn⟩ := Option.ne_none_iff_exists'.mp hlive
    obtain ⟨s', kind', free', heq, hinv', htakes, -⟩ := hinv.kfree_spec hn
    rw [heq, Option.some.injEq] at hk
    subst hk
    exact ⟨kind', free', hinv.takesBack hn hinv' htakes⟩
  | write _ hmem hpage hobj ih =>
    obtain ⟨kind, free, hinv⟩ := ih
    refine ⟨kind, free, hinv.toInv.write (fun b hne => ?_) hpage, hinv.lines, ?_, ?_⟩
    · obtain ⟨a, n, ha, hab, hbn⟩ := hmem b hne
      exact hinv.owned_asked ha hab hbn
    · rw [hobj]
      exact hinv.objects
    · rw [hobj]
      exact hinv.pages

/-! ## The free pages -/

/-- A cut page has a live object. -/
theorem Inv.exists_live (h : Inv L s live kind free) (hp : p < L.nbPages) (hkind : kind p ≠ 0) :
    ∃ a k, Piece L kind a p k ∧ live a ≠ none := by
  have hdesc := h.described p hp
  rw [Described, if_neg fun hc => hkind hc.1] at hdesc
  obtain ⟨k, hk⟩ := Finset.card_pos.mp (hdesc.2.2 hkind).2
  rw [Finset.mem_filter, Finset.mem_range] at hk
  exact ⟨_, k, ⟨hp, h.kind_lt p hp, hk.1, rfl⟩, hk.2⟩

/-- A page is free when it has no live object. -/
theorem Inv.listed_iff (h : Inv L s live kind free) (hp : p < L.nbPages) :
    Listed L s p ↔ ∀ a, live a ≠ none → L.pageIdx a ≠ p := by
  have h0 := L.maxLineSlab_pos
  have hpage : L.pageIdx (L.pageAddr p) = p :=
    L.pageIdx_eq hp (Nat.le_refl _) (Nat.lt_add_of_pos_right (by decide))
  have hmem : Listed L s p ↔ L.pageAddr p ∈ free 0 := by
    constructor
    · rintro ⟨pages, hrep, hin⟩
      rwa [hrep.unique (h.rep 0 h0)] at hin
    · exact fun hin => ⟨free 0, h.rep 0 h0, hin⟩
  rw [hmem, h.mem_free 0 h0]
  constructor
  · rintro ⟨q, k, hpiece, hkind, hdead⟩ a halive hpa
    obtain rfl : p = q := hpage.symm.trans hpiece.pageIdx
    obtain ⟨n, hn⟩ := Option.ne_none_iff_exists'.mp halive
    obtain ⟨r, j, ha, -⟩ := h.live_piece a n hn
    obtain rfl : r = p := ha.pageIdx.symm.trans hpa
    rw [(ha.of_kind_zero hkind).2] at halive
    exact halive hdead
  · intro hnone
    by_cases hkind : kind p = 0
    · refine ⟨p, 0, piece_of_page hp hkind, hkind, ?_⟩
      by_contra halive
      exact hnone _ halive hpage
    · obtain ⟨a, k, hpiece, halive⟩ := h.exists_live hp hkind
      exact absurd hpiece.pageIdx (hnone a halive)

theorem CountInv.cutPages_eq (h : CountInv L s live kind free) :
    cutPages L live = {p | p < L.nbPages ∧ kind p ≠ 0} := by
  ext p
  constructor
  · rintro ⟨a, l, ⟨n, hn, hl⟩, hl0, hpa⟩
    obtain ⟨q, k, hpiece, -⟩ := h.live_piece a n hn
    obtain rfl : q = p := hpiece.pageIdx.symm.trans hpa
    exact ⟨hpiece.page_lt, (h.lines a n q k hn hpiece) ▸ hl ▸ hl0⟩
  · rintro ⟨hp, hkind⟩
    obtain ⟨a, k, hpiece, halive⟩ := h.exists_live hp hkind
    obtain ⟨n, hn⟩ := Option.ne_none_iff_exists'.mp halive
    exact ⟨a, kind p, ⟨n, hn, h.lines a n p k hn hpiece⟩, hkind, hpiece.pageIdx⟩

/-- There are fewer objects and pages than addresses. -/
theorem CountInv.fits (h : CountInv L s live kind free) :
    (objectsOf L live l).ncard + (cutPages L live).ncard < 2 ^ 32 := by
  have hobjects : (objectsOf L live l).ncard ≤ L.nbPages * pageSize := by
    have hsub : objectsOf L live l ⊆ Finset.Ico L.kmb L.kme := by
      rintro a ⟨n, hn, -⟩
      obtain ⟨p, k, hpiece, -⟩ := h.live_piece a n hn
      have hin := hpiece.in_heap
      have hpos := L.objSize_pos (kind p)
      exact Finset.mem_coe.mpr (Finset.mem_Ico.mpr ⟨hin.1, by omega⟩)
    have hle := Set.ncard_le_ncard hsub (Finset.finite_toSet _)
    rw [Set.ncard_coe_finset, Nat.card_Ico, Layout.kme] at hle
    omega
  have hpages : (cutPages L live).ncard ≤ L.nbPages := by
    have hsub : cutPages L live ⊆ Finset.range L.nbPages := by
      rw [h.cutPages_eq]
      exact fun p hp => Finset.mem_coe.mpr (Finset.mem_range.mpr hp.1)
    have hle := Set.ncard_le_ncard hsub (Finset.finite_toSet _)
    rwa [Set.ncard_coe_finset, Finset.card_range] at hle
  have hram := L.pages_le
  simp only [pageSize] at hobjects hram
  omega

/-- In every reachable state the free pages are those without live objects, so that a page
comes back with the `kfree` of its last one, and the counters are exact. -/
theorem slabRun_counted (h : SlabRun L s₀ s live) : SlabCounted L s live := by
  obtain ⟨kind, free, hinv⟩ := h.countInv
  refine ⟨fun p hp => hinv.listed_iff hp, fun size hsize havail => ?_, fun x hx => ?_,
    fun l hl0 _ => ?_, ?_⟩
  · obtain ⟨x, s', kind', free', heq, hdead, hinv', -⟩ :=
      hinv.kmalloc_spec hsize (hinv.available havail)
    refine ⟨x, s', heq, fun p hp => ?_⟩
    rw [hinv'.listed_iff hp, hinv.listed_iff hp]
    constructor
    · intro hnone
      refine ⟨fun a ha => ?_, fun hpx => hnone x (by simp) hpx.symm⟩
      have hax : a ≠ x := fun he => ha (he ▸ hdead)
      exact hnone a (by rwa [Function.update_of_ne hax])
    · rintro ⟨hnone, hpx⟩ a ha
      by_cases hax : a = x
      · exact fun he => hpx (hax ▸ he.symm)
      · rw [Function.update_of_ne hax] at ha
        exact hnone a ha
  · obtain ⟨n, hn⟩ := Option.ne_none_iff_exists'.mp hx
    obtain ⟨s', kind', free', heq, hinv', -⟩ := hinv.kfree_spec hn
    refine ⟨s', heq, fun p hp => ?_⟩
    rw [hinv'.listed_iff hp, hinv.listed_iff hp]
    constructor
    · intro hnone
      have hlast : ∀ a, live a ≠ none → L.pageIdx a = p → a = x := by
        intro a ha hpa
        by_contra hax
        exact hnone a (by rwa [Function.update_of_ne hax]) hpa
      by_cases hpx : p = L.pageIdx x
      · exact .inr ⟨hpx, hlast⟩
      · exact .inl fun a ha hpa => hpx (hlast a ha hpa ▸ hpa.symm)
    · rintro hor a ha
      have hax : a ≠ x := by
        rintro rfl
        exact ha (Function.update_self ..)
      rw [Function.update_of_ne hax] at ha
      rcases hor with hnone | ⟨-, hlast⟩
      · exact hnone a ha
      · exact fun hpa => hax (hlast a ha hpa)
  · have hfits := hinv.fits (l := l)
    rw [hinv.objects l (Nat.ne_of_gt hl0), BitVec.toNat_ofNat]
    exact Nat.mod_eq_of_lt (by omega)
  · rw [hinv.pages, ← hinv.cutPages_eq, BitVec.toNat_ofNat]
    exact Nat.mod_eq_of_lt hinv.fits

end

/-- The first request on `twoPages` cuts a page into objects of two lines. -/
theorem slabRun_counted_twoPages :
    ∃ x s', SlabRun twoPages usedMem s' (Function.update (fun _ => none) x (some 20)) ∧
      SlabCounted twoPages s' (Function.update (fun _ => none) x (some 20)) := by
  have hstart : SlabRun twoPages usedMem (kmemkernelInit twoPages usedMem) fun _ => none := .init
  have hinv := inv_init twoPages usedMem
  have havail : PageAvailable twoPages (kmemkernelInit twoPages usedMem) 20 := by
    refine .inr ?_
    rw [← Bool.not_eq_true, (hinv.rep 0 (by decide)).isempty_iff]
    simp [twoPages]
  obtain ⟨x, s', kind', free', heq, -⟩ := hinv.kmalloc_spec (by decide) (hinv.available havail)
  have hrun := hstart.kmalloc (by decide) havail heq
  exact ⟨x, s', hrun, slabRun_counted hrun⟩

end Ko6.Kernel
