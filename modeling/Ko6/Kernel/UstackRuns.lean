import Ko6.Kernel.Kmemuser

set_option autoImplicit false

/-!
# Kernel: runs of the user stack allocator, and the user heap below it

After any history of `malloc_ustack` and `free_ustack` the live and the free
stacks tile the region of the stacks.  The heap grows towards that region by
`sbrk`, which checks `ustack_end` but does not move `uheap_end`: a stack that is
allocated later is only kept above the heap of the start.
-/

namespace Ko6.Kernel

open Ko6.Lib Ko6.Common

/-! ## Runs of the stack allocator -/

/-- The lowest address of the stack whose highest word is at `top`. -/
def stackOf (top : Nat) : Nat := 4 + top - ustackSize

/-- A stack can be had: a free one, or one below the region. -/
def StackAvailable (U : UserLayout) (u : Umem) : Prop :=
  listIsempty (ucells U) u U.freeUserStack = false ∨ u.uheapEnd + ustackSize ≤ u.ustackEnd

/-- The owners write into their stacks, and leave the marks alone. -/
structure StackWrites (u u' : Umem) (live : Nat → Prop) : Prop where
  mem : ∀ b, u'.mem b ≠ u.mem b → ∃ e, live e ∧ e + 4 ≤ b ∧ b < e + (ustackSize - 4)
  ustackEnd : u'.ustackEnd = u.ustackEnd
  uheapEnd : u'.uheapEnd = u.uheapEnd

/-- The states reached from an empty region, with the lowest addresses of the stacks
in use. -/
inductive UstackRun (U : UserLayout) (u₀ : Umem) : Umem → (Nat → Prop) → Prop where
  | init : U.userLo ≤ u₀.uheapEnd → u₀.uheapEnd ≤ u₀.ustackEnd → u₀.ustackEnd = U.ustackBeg →
      UstackRun U u₀ (kmemuserInit U u₀) fun _ => False
  | malloc {u u' : Umem} {live : Nat → Prop} {top : Nat} : UstackRun U u₀ u live →
      mallocUstack U u = some (top, u') → UstackRun U u₀ u' fun e => e = stackOf top ∨ live e
  | free {u u' : Umem} {live : Nat → Prop} {e : Nat} : UstackRun U u₀ u live →
      live e → freeUstack U (e + (ustackSize - 4)) u = some u' →
      UstackRun U u₀ u' fun d => live d ∧ d ≠ e
  | write {u u' : Umem} {live : Nat → Prop} : UstackRun U u₀ u live →
      StackWrites u u' live → UstackRun U u₀ u' live

/-- What the allocator promises in a state with the given stacks in use. -/
structure UstackSafe (U : UserLayout) (u : Umem) (live : Nat → Prop) : Prop where
  apart : ∀ d e, live d → live e → d ≠ e → d + ustackSize ≤ e ∨ e + ustackSize ≤ d
  list : ∃ free, Rep (ucells U) u U.freeUserStack free ∧ free.Pairwise (· < ·) ∧
    (∀ e ∈ free, ¬ live e) ∧ u.ustackEnd ∉ free ∧
    (∀ e, e ∈ free ∨ live e → u.ustackEnd ≤ e ∧ e + ustackSize ≤ U.ustackBeg) ∧
    ∀ a, u.ustackEnd ≤ a → a < U.ustackBeg →
      ∃! e, (e ∈ free ∨ live e) ∧ e ≤ a ∧ a < e + ustackSize
  malloc_ok : StackAvailable U u → ∃ top u', mallocUstack U u = some (top, u') ∧
    ¬ live (stackOf top)
  free_ok : ∀ e, live e → ∃ u', freeUstack U (e + (ustackSize - 4)) u = some u'
  at_rest : (∀ e, ¬ live e) →
    u.ustackEnd = U.ustackBeg ∧ Rep (ucells U) u U.freeUserStack []

section
variable {U : UserLayout} {u u' u₀ : Umem} {live : Nat → Prop} {free : List Nat}
  {brk : Option Nat} {e top : Nat}

theorem stackOf_top (e : Nat) : stackOf (e + (ustackSize - 4)) = e := by
  have hsize : ustackSize = 65536 := rfl
  unfold stackOf
  omega

theorem UstackInv.write (h : UstackInv U u live free) (hw : StackWrites u u' live) :
    UstackInv U u' live free := by
  -- no word of a cell and no mark is written
  have hcell : ∀ c ∈ U.freeUserStack :: free, ∀ b, c ≤ b → b < c + 8 → u'.mem b = u.mem b := by
    intro c hc b hlo hhi
    by_contra hne
    obtain ⟨e, he, heb, hbe⟩ := hw.mem b hne
    have hap := h.cell_apart hc he
    omega
  have hmark : ∀ d, live d → ∀ b, (d ≤ b ∧ b < d + 4) ∨
      (d + (ustackSize - 4) ≤ b ∧ b < d + ustackSize) → u'.mem b = u.mem b := by
    intro d hd b hb
    by_contra hne
    obtain ⟨e, he, heb, hbe⟩ := hw.mem b hne
    by_cases hde : d = e
    · omega
    · have hap := ((h.tile d).mpr (.inr hd)).1.apart ((h.tile e).mpr (.inr he)).1 hde
      simp only [ustackSize] at *
      omega
  refine ⟨⟨?_, ?_, ?_, ?_, ?_, ?_, h.apart, h.sorted, ?_⟩, ?_⟩
  · refine h.rep.other fun c hc => ?_
    have hnext : u'.mem.readWord c = u.mem.readWord c :=
      Mem.readWord_congr fun b hlo hhi => hcell c hc b hlo (by omega)
    have hprev : u'.mem.readWord (c + 4) = u.mem.readWord (c + 4) :=
      Mem.readWord_congr fun b hlo hhi => hcell c hc b (by omega) (by omega)
    simp only [ucells, hnext, hprev]
  · rw [hw.uheapEnd]
    exact h.lo_le
  · rw [hw.uheapEnd, hw.ustackEnd]
    exact h.heap_le
  · rw [hw.ustackEnd]
    exact h.end_le
  · rw [hw.ustackEnd]
    exact h.end_dvd
  · rw [hw.ustackEnd]
    exact h.tile
  · intro d hd
    obtain ⟨hm1, hm2⟩ := h.magic d hd
    constructor
    · rw [← hm1]
      exact Mem.readWord_congr fun b hlo hhi => hmark d hd b (.inl ⟨hlo, hhi⟩)
    · rw [← hm2]
      refine Mem.readWord_congr fun b hlo hhi => hmark d hd b (.inr ⟨hlo, ?_⟩)
      simp only [ustackSize] at *
      omega
  · rw [hw.ustackEnd]
    exact h.lowest

/-- The state after `malloc_ustack`: where the stack is taken from. -/
theorem UstackInv.malloc_cases (h : UstackInv U u live free)
    (hm : mallocUstack U u = some (top, u')) :
    u'.uheapEnd = u.uheapEnd ∧
    ((listIsempty (ucells U) u U.freeUserStack = false ∧ u'.ustackEnd = u.ustackEnd) ∨
      (listIsempty (ucells U) u U.freeUserStack = true ∧ u.uheapEnd + ustackSize ≤ u.ustackEnd ∧
        stackOf top = u.ustackEnd - ustackSize ∧ u'.ustackEnd = u.ustackEnd - ustackSize)) := by
  rcases List.eq_nil_or_concat free with rfl | ⟨rest, x, rfl⟩
  · rw [mallocUstack_nil h.rep] at hm
    split at hm
    · exact absurd hm (by simp)
    · rename_i hroom
      obtain ⟨rfl, rfl⟩ := Prod.mk.inj (Option.some.inj hm)
      have hlo := h.lo_le
      have hheap := h.heap_le
      have hlow := U.lo_pos
      have hsize : ustackSize = 65536 := rfl
      unfold stackOf
      exact ⟨rfl, .inr ⟨h.rep.isempty_iff.mpr rfl, by omega, by omega, rfl⟩⟩
  · rw [List.concat_eq_append] at h
    rw [mallocUstack_concat h.rep] at hm
    obtain ⟨-, rfl⟩ := Prod.mk.inj (Option.some.inj hm)
    obtain ⟨hend, hheap⟩ := uend_touches h.rep.unlink_touches
    refine ⟨hheap, .inl ⟨?_, hend⟩⟩
    rw [← Bool.not_eq_true, h.rep.isempty_iff]
    simp

theorem UstackInv.malloc_some (h : UstackInv U u live free) (ha : StackAvailable U u) :
    ∃ top u', mallocUstack U u = some (top, u') := by
  rcases List.eq_nil_or_concat free with rfl | ⟨rest, x, rfl⟩
  · have hroom := ha.resolve_left (by rw [h.rep.isempty_iff.mpr rfl]; simp)
    have hlt : ¬ u.ustackEnd - ustackSize < u.uheapEnd := by omega
    rw [mallocUstack_nil h.rep, if_neg hlt]
    exact ⟨_, _, rfl⟩
  · rw [List.concat_eq_append] at h
    exact ⟨_, _, mallocUstack_concat h.rep⟩

/-- The lowest stack of the region is in use, unless there is none. -/
theorem UstackInv.lowest_live (h : UstackInv U u live free) :
    u.ustackEnd = U.ustackBeg ∨ live u.ustackEnd := by
  rcases Nat.eq_or_lt_of_le h.end_le with heq | hlt
  · exact .inl heq
  · have hgrid : U.OnGrid u.ustackEnd := ⟨h.lo_le.trans h.heap_le, hlt, h.end_dvd⟩
    exact .inr (((h.tile _).mp ⟨hgrid, Nat.le_refl _⟩).resolve_left h.lowest)

/-- Each call that returns keeps the invariant. -/
theorem UstackInv.malloc_keeps (h : UstackInv U u live free)
    (hm : mallocUstack U u = some (top, u')) :
    ∃ free', UstackInv U u' (fun e => e = stackOf top ∨ live e) free' := by
  obtain ⟨e, free', rfl, -, hinv'⟩ := h.malloc_spec hm
  rw [stackOf_top]
  exact ⟨free', hinv'⟩

theorem UstackInv.free_keeps {e : Nat} (h : UstackInv U u live free) (hlive : live e)
    (hf : freeUstack U (e + (ustackSize - 4)) u = some u') :
    ∃ free', UstackInv U u' (fun d => live d ∧ d ≠ e) free' := by
  obtain ⟨u₁, free', heq, hinv'⟩ := h.free_spec hlive
  rw [hf, Option.some.injEq] at heq
  exact ⟨free', heq ▸ hinv'⟩

/-- The invariant holds along every run. -/
theorem UstackRun.inv (h : UstackRun U u₀ u live) : ∃ free, UstackInv U u live free := by
  induction h with
  | init hlo hheap hend => exact ⟨[], ustackInv_init hlo hheap hend⟩
  | malloc _ hm ih =>
    obtain ⟨free, hinv⟩ := ih
    exact hinv.malloc_keeps hm
  | free _ hlive hf ih =>
    obtain ⟨free, hinv⟩ := ih
    exact hinv.free_keeps hlive hf
  | write _ hw ih =>
    obtain ⟨free, hinv⟩ := ih
    exact ⟨free, hinv.write hw⟩

/-- The place that holds an address of the region. -/
theorem UstackCore.tile_unique (h : UstackCore U u live free) {a : Nat} (hlo : u.ustackEnd ≤ a)
    (hhi : a < U.ustackBeg) : ∃! e, (e ∈ free ∨ live e) ∧ e ≤ a ∧ a < e + ustackSize := by
  have hrest := h.end_dvd
  have huser := h.lo_le.trans h.heap_le
  obtain ⟨i, hi⟩ := hrest
  refine ⟨U.ustackBeg - ustackSize * ((U.ustackBeg - 1 - a) / ustackSize + 1), ⟨?_, ?_⟩, ?_⟩
  · rw [← h.tile]
    refine ⟨⟨?_, ?_, ⟨(U.ustackBeg - 1 - a) / ustackSize + 1, ?_⟩⟩, ?_⟩
    · simp only [ustackSize] at *
      omega
    · simp only [ustackSize] at *
      omega
    · simp only [ustackSize] at *
      omega
    · simp only [ustackSize] at *
      omega
  · simp only [ustackSize] at *
    omega
  · rintro d ⟨hd, hda, had⟩
    obtain ⟨⟨-, hdlt, j, hj⟩, -⟩ := (h.tile d).mpr hd
    simp only [ustackSize] at *
    omega

/-- In every reachable state the stacks in use and the free ones tile the region, and
the calls succeed. -/
theorem ustackRun_safe (h : UstackRun U u₀ u live) : UstackSafe U u live := by
  obtain ⟨free, hinv⟩ := h.inv
  constructor
  · intro d e hd he hne
    exact ((hinv.tile d).mpr (.inr hd)).1.apart ((hinv.tile e).mpr (.inr he)).1 hne
  · refine ⟨free, hinv.rep, hinv.sorted, hinv.apart, hinv.lowest, ?_, ?_⟩
    · intro e he
      obtain ⟨hgrid, hge⟩ := (hinv.tile e).mpr he
      exact ⟨hge, hgrid.room⟩
    · exact fun a hlo hhi => hinv.tile_unique hlo hhi
  · intro havail
    obtain ⟨top, u', hm⟩ := hinv.malloc_some havail
    obtain ⟨e, -, rfl, hdead, -⟩ := hinv.malloc_spec hm
    refine ⟨_, u', hm, ?_⟩
    rwa [stackOf_top]
  · intro e he
    obtain ⟨u', -, heq, -⟩ := hinv.free_spec he
    exact ⟨u', heq⟩
  · intro hnone
    have hend : u.ustackEnd = U.ustackBeg := hinv.lowest_live.resolve_right (hnone _)
    have hfree : free = [] := by
      refine List.eq_nil_iff_forall_not_mem.mpr fun e he => ?_
      obtain ⟨hgrid, hge⟩ := (hinv.tile e).mpr (.inl he)
      have hlt := hgrid.2.1
      omega
    exact ⟨hend, hfree ▸ hinv.rep⟩

end

/-- A user region with room for four stacks. -/
def fourStacks : UserLayout where
  freeUserStack := 0x80010000
  ustackBeg := 0x81C00000
  userLo := 0x81BC0000
  lo_pos := by decide
  region_lt := by decide
  root_outside := by decide
  beg_lt := by decide
  root_lt := by decide

/-- Its state before the first stack. -/
def noStacks : Umem where
  mem := fun b => BitVec.ofNat 8 b
  ustackEnd := 0x81C00000
  uheapEnd := 0x81BC0000

/-- One stack, given back. -/
theorem ustackRun_safe_fourStacks :
    ∃ u u', UstackRun fourStacks noStacks u (fun e => e = 0x81BF0000 ∨ False) ∧
      UstackRun fourStacks noStacks u' (fun d => (d = 0x81BF0000 ∨ False) ∧ d ≠ 0x81BF0000) ∧
      UstackSafe fourStacks u (fun e => e = 0x81BF0000 ∨ False) ∧
      u'.ustackEnd = fourStacks.ustackBeg := by
  have hstart : UstackRun fourStacks noStacks (kmemuserInit fourStacks noStacks) fun _ => False :=
    .init (by decide) (by decide) rfl
  obtain ⟨free, hinv⟩ := hstart.inv
  obtain ⟨hend, hrep⟩ := (ustackRun_safe hstart).at_rest fun _ h => h
  have hheap : (kmemuserInit fourStacks noStacks).uheapEnd = noStacks.uheapEnd := rfl
  have hroom : (kmemuserInit fourStacks noStacks).uheapEnd + ustackSize ≤
      (kmemuserInit fourStacks noStacks).ustackEnd := by
    rw [hend, hheap]
    decide
  obtain ⟨top, u, hm, -⟩ := (ustackRun_safe hstart).malloc_ok (.inr hroom)
  have htop : stackOf top = 0x81BF0000 := by
    rcases (hinv.malloc_cases hm).2 with ⟨hne, -⟩ | ⟨-, -, heq, -⟩
    · rw [hrep.isempty_iff.mpr rfl] at hne
      exact absurd hne (by decide)
    · rw [heq, hend]
      rfl
  have hrun := hstart.malloc hm
  rw [htop] at hrun
  obtain ⟨u', hf⟩ := (ustackRun_safe hrun).free_ok 0x81BF0000 (.inl rfl)
  have hrun' := hrun.free (.inl rfl) hf
  refine ⟨u, u', hrun, hrun', ustackRun_safe hrun, ?_⟩
  exact ((ustackRun_safe hrun').at_rest fun e he => he.2 (he.1.resolve_right id)).1

/-! ## The heap below the stacks -/

/-- The states reached by `sbrk` calls and by calls of the stack allocator, with the
stacks in use and the address that the last successful `sbrk` gave as the end of the
heap.  Every `malloc_ustack` is called in a state that meets `ok`. -/
inductive BrkRun (U : UserLayout) (cacheLineSize uheapBeg : Nat) (u₀ : Umem)
    (ok : Umem → Option Nat → Prop) : Umem → (Nat → Prop) → Option Nat → Prop where
  | init : U.userLo ≤ u₀.uheapEnd → u₀.uheapEnd ≤ u₀.ustackEnd → u₀.ustackEnd = U.ustackBeg →
      BrkRun U cacheLineSize uheapBeg u₀ ok (kmemuserInit U u₀) (fun _ => False) none
  | sbrk {u : Umem} {live : Nat → Prop} {brk : Option Nat} (increment : BitVec 32) :
      BrkRun U cacheLineSize uheapBeg u₀ ok u live brk →
      BrkRun U cacheLineSize uheapBeg u₀ ok u live
        (match sbrk cacheLineSize uheapBeg u increment with
          | (.success, a) => some a
          | (.enomem, _) => brk)
  | malloc {u u' : Umem} {live : Nat → Prop} {brk : Option Nat} {top : Nat} :
      BrkRun U cacheLineSize uheapBeg u₀ ok u live brk → ok u brk →
      mallocUstack U u = some (top, u') →
      BrkRun U cacheLineSize uheapBeg u₀ ok u' (fun e => e = stackOf top ∨ live e) brk
  | free {u u' : Umem} {live : Nat → Prop} {brk : Option Nat} {e : Nat} :
      BrkRun U cacheLineSize uheapBeg u₀ ok u live brk →
      live e → freeUstack U (e + (ustackSize - 4)) u = some u' →
      BrkRun U cacheLineSize uheapBeg u₀ ok u' (fun d => live d ∧ d ≠ e) brk
  | write {u u' : Umem} {live : Nat → Prop} {brk : Option Nat} :
      BrkRun U cacheLineSize uheapBeg u₀ ok u live brk → StackWrites u u' live →
      BrkRun U cacheLineSize uheapBeg u₀ ok u' live brk

/-- The stacks in use are above the end of the heap. -/
def AboveHeap (live : Nat → Prop) (brk : Option Nat) : Prop :=
  ∀ e a, live e → brk = some a → a ≤ e

/-- `malloc_ustack` will not go below the end of the heap: there is a free stack, or
room for one between the heap and the region. -/
def RoomAboveHeap (U : UserLayout) (u : Umem) (brk : Option Nat) : Prop :=
  listIsempty (ucells U) u U.freeUserStack = false ∨
    ∀ a, brk = some a → a + ustackSize ≤ u.ustackEnd

section
variable {U : UserLayout} {cacheLineSize uheapBeg : Nat} {u u' u₀ : Umem} {live : Nat → Prop}
  {free : List Nat} {brk : Option Nat} {e top : Nat}

theorem sbrk_le {increment : BitVec 32} {a : Nat}
    (h : sbrk cacheLineSize uheapBeg u increment = (.success, a)) : a ≤ u.ustackEnd := by
  simp only [sbrk] at h
  split at h
  · rw [Prod.mk.injEq] at h
    exact absurd h.1 (by decide)
  · rename_i hin
    rw [not_or, Nat.not_lt, Nat.not_lt] at hin
    rw [Prod.mk.injEq] at h
    exact h.2 ▸ hin.2

theorem BrkRun.ustackInv {ok : Umem → Option Nat → Prop}
    (h : BrkRun U cacheLineSize uheapBeg u₀ ok u live brk) : ∃ free, UstackInv U u live free := by
  induction h with
  | init hlo hheap hend => exact ⟨[], ustackInv_init hlo hheap hend⟩
  | sbrk _ _ ih => exact ih
  | malloc _ _ hm ih =>
    obtain ⟨free, hinv⟩ := ih
    exact hinv.malloc_keeps hm
  | free _ hlive hf ih =>
    obtain ⟨free, hinv⟩ := ih
    exact hinv.free_keeps hlive hf
  | write _ hw ih =>
    obtain ⟨free, hinv⟩ := ih
    exact ⟨free, hinv.write hw⟩

/-- When every `malloc_ustack` has room above the heap, the region of the stacks stays
above it. -/
theorem BrkRun.brk_le (h : BrkRun U cacheLineSize uheapBeg u₀ (RoomAboveHeap U) u live brk) :
    ∀ a, brk = some a → a ≤ u.ustackEnd := by
  induction h with
  | init hlo hheap hend => exact fun a ha => absurd ha (by simp)
  | sbrk increment _ ih =>
    intro a ha
    split at ha
    · rename_i b hb
      rw [Option.some.injEq] at ha
      exact ha ▸ sbrk_le hb
    · exact ih a ha
  | malloc hrun hok hm ih =>
    intro a ha
    obtain ⟨free, hinv⟩ := hrun.ustackInv
    rcases (hinv.malloc_cases hm).2 with ⟨-, hend⟩ | ⟨hempty, -, -, hend⟩
    · rw [hend]
      exact ih a ha
    · have hroom := hok.resolve_left (by rw [hempty]; simp) a ha
      rw [hend]
      omega
  | free hrun hlive hf ih =>
    intro a ha
    obtain ⟨free, hinv⟩ := hrun.ustackInv
    obtain ⟨u', free', heq, hinv'⟩ := hinv.free_spec hlive
    rw [hf, Option.some.injEq] at heq
    subst heq
    refine (ih a ha).trans ?_
    -- the lowest stack that is left was there before
    rcases hinv'.lowest_live with hend | hlow
    · rw [hend]
      exact hinv.end_le
    · exact ((hinv.tile _).mpr (.inr hlow.1)).2
  | write _ hw ih =>
    rw [hw.ustackEnd]
    exact ih

/-- The next stack is above the heap exactly when there is room for it there. -/
theorem UstackInv.malloc_above_iff (h : UstackInv U u live free)
    (hbrk : ∀ a, brk = some a → a ≤ u.ustackEnd) (hm : mallocUstack U u = some (top, u')) :
    AboveHeap (fun e => e = stackOf top ∨ live e) brk ↔ RoomAboveHeap U u brk := by
  have hge : ∀ e, live e → u.ustackEnd ≤ e := fun e he => ((h.tile e).mpr (.inr he)).2
  obtain ⟨e, free', rfl, -, hinv'⟩ := h.malloc_spec hm
  rw [stackOf_top]
  have hge' : u'.ustackEnd ≤ e := ((hinv'.tile e).mpr (.inr (.inl rfl))).2
  constructor
  · intro habove
    rcases (h.malloc_cases hm).2 with ⟨hne, -⟩ | ⟨-, hroom, heq, -⟩
    · exact .inl hne
    · right
      intro a ha
      have hle := habove e a (.inl rfl) ha
      rw [stackOf_top] at heq
      omega
  · intro hroom d a hd ha
    rcases hd with rfl | hd
    · rcases (h.malloc_cases hm).2 with ⟨-, hend⟩ | ⟨hempty, -, -, hend⟩
      · rw [hend] at hge'
        exact (hbrk a ha).trans hge'
      · have hle := hroom.resolve_left (by rw [hempty]; simp) a ha
        omega
    · exact (hbrk a ha).trans (hge d hd)

/-- In every run whose `malloc_ustack` calls have room above the heap, the stacks in
use are above it; and the next call keeps them so exactly when it has room. -/
theorem brkRun_above (h : BrkRun U cacheLineSize uheapBeg u₀ (RoomAboveHeap U) u live brk) :
    AboveHeap live brk ∧ ∀ top u', mallocUstack U u = some (top, u') →
      (AboveHeap (fun e => e = stackOf top ∨ live e) brk ↔ RoomAboveHeap U u brk) := by
  obtain ⟨free, hinv⟩ := h.ustackInv
  have hbrk := h.brk_le
  constructor
  · intro e a he ha
    exact (hbrk a ha).trans ((hinv.tile e).mpr (.inr he)).2
  · exact fun top u' hm => hinv.malloc_above_iff hbrk hm

end

/-- The same region, with two stacks' room above the globals of the program. -/
def twoStacksLeft : Umem where
  mem := fun b => BitVec.ofNat 8 b
  ustackEnd := 0x81C00000
  uheapEnd := 0x81BE0000

/-- The stack of the main thread, and then the `sbrk (4 * PAGE_SIZE)` of
`malloc_init`. -/
theorem brkRun_mainThread (ok : Umem → Option Nat → Prop) (hok : ∀ u, ok u none) :
    ∃ u free, BrkRun fourStacks 16 0x81BE0000 twoStacksLeft ok u
        (fun e => e = 0x81BF0000 ∨ False) (some 0x81BE4000) ∧
      UstackInv fourStacks u (fun e => e = 0x81BF0000 ∨ False) free ∧
      u.ustackEnd = 0x81BF0000 ∧ u.uheapEnd = 0x81BE0000 := by
  have hstart : BrkRun fourStacks 16 0x81BE0000 twoStacksLeft ok
      (kmemuserInit fourStacks twoStacksLeft) (fun _ => False) none :=
    .init (by decide) (by decide) rfl
  have hinv : UstackInv fourStacks (kmemuserInit fourStacks twoStacksLeft) (fun _ => False) [] :=
    ustackInv_init (by decide) (by decide) rfl
  have hroom : StackAvailable fourStacks (kmemuserInit fourStacks twoStacksLeft) :=
    .inr (by decide)
  obtain ⟨top, u, hm⟩ := hinv.malloc_some hroom
  obtain ⟨hheap, hcases⟩ := hinv.malloc_cases hm
  obtain ⟨htop, hend⟩ : stackOf top = 0x81BF0000 ∧ u.ustackEnd = 0x81BF0000 := by
    rcases hcases with ⟨hne, -⟩ | ⟨-, -, htop, hend⟩
    · rw [hinv.rep.isempty_iff.mpr rfl] at hne
      exact absurd hne (by decide)
    · exact ⟨htop, hend⟩
  have hheap' : u.uheapEnd = 0x81BE0000 := hheap
  have hrun := (hstart.malloc (hok _) hm).sbrk 0x4000
  have hsbrk : sbrk 16 0x81BE0000 u 0x4000 = (.success, 0x81BE4000) := by
    simp only [sbrk, hheap', hend]
    decide
  rw [hsbrk, htop] at hrun
  obtain ⟨free, hinv'⟩ := hrun.ustackInv
  exact ⟨u, free, hrun, hinv', hend, hheap'⟩

/-- The stack of the main thread is above the first heap. -/
theorem brkRun_above_mainThread :
    ∃ u, BrkRun fourStacks 16 0x81BE0000 twoStacksLeft (RoomAboveHeap fourStacks) u
        (fun e => e = 0x81BF0000 ∨ False) (some 0x81BE4000) ∧
      AboveHeap (fun e => e = 0x81BF0000 ∨ False) (some 0x81BE4000) := by
  obtain ⟨u, free, hrun, -⟩ :=
    brkRun_mainThread (RoomAboveHeap fourStacks) fun u => .inr fun a ha => absurd ha (by simp)
  exact ⟨u, hrun, (brkRun_above hrun).1⟩

/-- The next `malloc_ustack` gives a stack that contains the pages of the heap: it is
compared with `uheap_end`, which `sbrk` has not moved. -/
theorem ustack_over_heap :
    ¬ ∀ (u : Umem) (live : Nat → Prop) (brk : Option Nat),
      BrkRun fourStacks 16 0x81BE0000 twoStacksLeft (fun _ _ => True) u live brk →
      AboveHeap live brk := by
  intro hall
  obtain ⟨u, free, hrun, hinv, hend, hheap⟩ :=
    brkRun_mainThread (fun _ _ => True) fun _ => trivial
  have hroom : StackAvailable fourStacks u := by
    right
    have hsize : ustackSize = 65536 := rfl
    rw [hheap, hend]
    omega
  obtain ⟨top, u', hm⟩ := hinv.malloc_some hroom
  have habove := hall u' _ _ (hrun.malloc trivial hm)
  have hbrk : ∀ a, some 0x81BE4000 = some a → a ≤ u.ustackEnd := by
    intro a ha
    rw [Option.some.injEq] at ha
    omega
  rcases (hinv.malloc_above_iff hbrk hm).mp habove with hne | hroom'
  · -- there is no free stack
    rcases List.eq_nil_or_concat free with rfl | ⟨rest, x, rfl⟩
    · rw [hinv.rep.isempty_iff.mpr rfl] at hne
      exact absurd hne (by decide)
    · have hx : x ∈ rest.concat x := by simp
      obtain ⟨⟨-, hlt, i, hi⟩, hge⟩ := (hinv.tile x).mpr (.inl hx)
      have hbeg : fourStacks.ustackBeg = 0x81C00000 := rfl
      refine hinv.apart x hx (.inl ?_)
      simp only [ustackSize] at hi
      omega
  · have hle := hroom' 0x81BE4000 rfl
    have hsize : ustackSize = 65536 := rfl
    omega

end Ko6.Kernel
