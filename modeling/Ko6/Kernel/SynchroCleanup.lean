import Ko6.Kernel.MutexDestroy
import Ko6.Kernel.SlabRuns

set_option autoImplicit false

/-!
# Kernel: `process_mutexes_cleanup` and `process_barriers_cleanup`

Every mutex is an item of `MutexGroot` and every barrier one of `BarrierGroot`, whatever
the process.  The clean-up of a process goes over one of the lists, and unlinks and frees
the items whose `pid` is that of the process.  The two functions are one loop, over one
list and one field `pid`.

That the loop ends without a panic rests on the allocator: an item of the lists is a live
object of it, of the size of its structure, and stands there once.
-/

namespace Ko6.Kernel

open Ko6.Lib Ko6.Common

namespace Ksys

/-! ## Model -/

section
variable (M : Machine) (pidOf : Nat → Int) (pid : Int)

/-- The body of the loops, with the item `x`: the list and the memory afterwards. -/
def cleanupObject (x : Nat) (groot : List Nat) (kmem : Kmem) : Option (List Nat × Kmem) :=
  if pidOf x = pid then do
    let kmem ← kfree M.kernel x kmem
    some (groot.filter (· ≠ x), kmem)
  else some (groot, kmem)

/-- The loops, over the items that are still to come.  `list_foreach` has read the next
item before the body frees this one. -/
def cleanupGroot : List Nat → List Nat → Kmem → Option (List Nat × Kmem)
  | [], groot, kmem => some (groot, kmem)
  | x :: items, groot, kmem => do
    let (groot, kmem) ← cleanupObject M pidOf pid x groot kmem
    cleanupGroot items groot kmem

end

/-- `process_mutexes_cleanup`. -/
def processMutexesCleanup (M : Machine) (pid : Int) (k : Ksys) : Except Stop (Int × Ksys) :=
  match cleanupGroot M k.mutexPid pid k.mutexGroot k.mutexGroot k.sys.kmem with
  | none => .error .panics
  | some (groot, kmem) =>
    .ok (0, { k with sys := { k.sys with kmem := kmem }, mutexGroot := groot })

/-- `process_barriers_cleanup`. -/
def processBarriersCleanup (M : Machine) (pid : Int) (k : Ksys) : Except Stop (Int × Ksys) :=
  match cleanupGroot M k.barrierPid pid k.barrierGroot k.barrierGroot k.sys.kmem with
  | none => .error .panics
  | some (groot, kmem) =>
    .ok (0, { k with sys := { k.sys with kmem := kmem }, barrierGroot := groot })

/-! ## The loop -/

/-- What is live without the items of the process. -/
def dropped (pidOf : Nat → Int) (pid : Int) (items : List Nat) (live : Live) : Live := fun x =>
  if x ∈ items ∧ pidOf x = pid then none else live x

/-- From the list `groot` and the memory `kmem`, exactly the items of the process are gone
and freed, and what the other live objects hold is what it was. -/
structure Cleans (L : Layout) (s₀ : Kmem) (pidOf : Nat → Int) (pid : Int) (live : Live)
    (groot groot' : List Nat) (kmem kmem' : Kmem) : Prop where
  items : groot' = groot.filter fun x => pidOf x ≠ pid
  freed : SlabRun L s₀ kmem' (dropped pidOf pid groot live)
  kept : ∀ a n, dropped pidOf pid groot live a = some n →
    ∀ b, a ≤ b → b < a + n → kmem'.mem b = kmem.mem b

section
variable {M : Machine} {s₀ kmem : Kmem} {live : Live} {pidOf : Nat → Int} {pid : Int}
  {items groot : List Nat} {x : Nat}

/-- The first item is one of the process and freed. -/
theorem dropped_cons (hx : pidOf x = pid) :
    dropped pidOf pid (x :: items) live =
      dropped pidOf pid items (Function.update live x none) := by
  funext a
  by_cases hax : a = x
  · simp [dropped, hax, hx]
  · simp [dropped, hax]

/-- The first item is none of the process. -/
theorem dropped_cons_ne (hx : pidOf x ≠ pid) :
    dropped pidOf pid (x :: items) live = dropped pidOf pid items live := by
  funext a
  by_cases hax : a = x
  · simp [dropped, hax, hx]
  · simp [dropped, hax]

/-- A live object is freed without a panic, and the others keep what they hold. -/
theorem kfree_live (h : SlabRun M.kernel s₀ kmem live) (hx : live x ≠ none) :
    ∃ kmem', kfree M.kernel x kmem = some kmem' ∧
      SlabRun M.kernel s₀ kmem' (Function.update live x none) ∧
      ∀ a n, a ≠ x → live a = some n → ∀ b, a ≤ b → b < a + n → kmem'.mem b = kmem.mem b := by
  have hsafe := slabRun_safe h
  obtain ⟨kmem', heq, hmem⟩ := hsafe.kfree_ok x hx
  refine ⟨kmem', heq, h.kfree hx heq, ?_⟩
  intro a n hax ha b hlo hhi
  have hroom := hsafe.room a n ha
  exact hmem a hax (by simp [ha]) b hlo (by omega)

/-- The loop ends, and has unlinked and freed the items of the process among those that it
went over. -/
theorem cleanupGroot_spec (pidOf : Nat → Int) (pid : Int) (groot : List Nat)
    (h : SlabRun M.kernel s₀ kmem live) (hnodup : items.Nodup)
    (hlive : ∀ x ∈ items, live x ≠ none) :
    ∃ kmem', cleanupGroot M pidOf pid items groot kmem =
        some (groot.filter fun x => ¬ (x ∈ items ∧ pidOf x = pid), kmem') ∧
      SlabRun M.kernel s₀ kmem' (dropped pidOf pid items live) ∧
      ∀ a n, dropped pidOf pid items live a = some n →
        ∀ b, a ≤ b → b < a + n → kmem'.mem b = kmem.mem b := by
  induction items generalizing groot kmem live with
  | nil =>
    have hnone : dropped pidOf pid [] live = live := by
      funext a
      simp [dropped]
    refine ⟨kmem, by simp [cleanupGroot], hnone.symm ▸ h, fun _ _ _ _ _ _ => rfl⟩
  | cons x items ih =>
    obtain ⟨hfresh, hnodup'⟩ := List.nodup_cons.mp hnodup
    have hx := hlive x List.mem_cons_self
    by_cases hpid : pidOf x = pid
    · obtain ⟨kmem₁, hfree, hrun₁, hmem₁⟩ := kfree_live h hx
      have hlive₁ : ∀ y ∈ items, Function.update live x none y ≠ none := by
        intro y hy
        have hne : y ≠ x := fun e => hfresh (e ▸ hy)
        rw [Function.update_of_ne hne]
        exact hlive y (List.mem_cons_of_mem x hy)
      obtain ⟨kmem', hloop, hrun', hmem'⟩ :=
        ih (groot.filter (· ≠ x)) hrun₁ hnodup' hlive₁
      rw [dropped_cons hpid]
      refine ⟨kmem', ?_, hrun', ?_⟩
      · rw [cleanupGroot, cleanupObject, if_pos hpid, hfree]
        refine hloop.trans (congrArg (fun l => some (l, kmem')) ?_)
        rw [List.filter_filter]
        refine List.filter_congr fun y _ => ?_
        by_cases hyx : y = x
        · simp [hyx, hpid]
        · simp [hyx]
      · intro a n ha b hlo hhi
        have hkept : Function.update live x none a = some n := by
          unfold dropped at ha
          split at ha
          · exact absurd ha (by simp)
          · exact ha
        have hax : a ≠ x := by
          rintro rfl
          simp at hkept
        rw [Function.update_of_ne hax] at hkept
        exact (hmem' a n ha b hlo hhi).trans (hmem₁ a n hax hkept b hlo hhi)
    · obtain ⟨kmem', hloop, hrun', hmem'⟩ :=
        ih groot h hnodup' fun y hy => hlive y (List.mem_cons_of_mem x hy)
      rw [dropped_cons_ne hpid]
      refine ⟨kmem', ?_, hrun', hmem'⟩
      rw [cleanupGroot, cleanupObject, if_neg hpid]
      refine hloop.trans (congrArg (fun l => some (l, kmem')) ?_)
      refine List.filter_congr fun y _ => ?_
      by_cases hyx : y = x
      · simp [hyx, hpid]
      · simp [hyx]

/-- The loop over a whole list. -/
theorem cleanupGroot_cleans (pidOf : Nat → Int) (pid : Int)
    (h : SlabRun M.kernel s₀ kmem live) (hnodup : groot.Nodup) (hlive : ∀ x ∈ groot, live x ≠ none) :
    ∃ groot' kmem', cleanupGroot M pidOf pid groot groot kmem = some (groot', kmem') ∧
      Cleans M.kernel s₀ pidOf pid live groot groot' kmem kmem' := by
  obtain ⟨kmem', hloop, hrun, hmem⟩ :=
    cleanupGroot_spec pidOf pid groot h hnodup hlive
  refine ⟨_, kmem', hloop, ?_, hrun, hmem⟩
  refine List.filter_congr fun x hx => ?_
  simp [hx]

end

/-! ## Runs -/

/-- The runs of a kernel from its start, with what is live.  Between the functions that
make and destroy mutexes and barriers the kernel does anything else, as long as it leaves
the two lists and treats the other objects of the allocator as it must. -/
inductive ObjectRun (M : Machine) (s₀ : Kmem) : Ksys → Live → Prop where
  | init {k : Ksys} : k.sys.kmem = kmemkernelInit M.kernel s₀ →
      ObjectRun M s₀ (ksynchroInit k) fun _ => none
  | mutexInit {k k' : Ksys} {live : Live} {e : Ret} {m : Nat} : ObjectRun M s₀ k live →
      PageAvailable M.kernel k.sys.kmem mutexSize →
      threadMutexInit M k = .ok ((e, some m), k') →
      ObjectRun M s₀ k' (Function.update live m (some mutexSize))
  | mutexDestroy {k k' : Ksys} {live : Live} {m : Nat} : ObjectRun M s₀ k live →
      m ∈ k.mutexGroot → threadMutexDestroy M (some m) k = .ok (.errno .success, k') →
      ObjectRun M s₀ k' (Function.update live m none)
  | barrierInit {k k' : Ksys} {live : Live} {e : Ret} {b count : Nat} : ObjectRun M s₀ k live →
      PageAvailable M.kernel k.sys.kmem barrierSize →
      threadBarrierInit M none count k = .ok ((e, some b), k') →
      ObjectRun M s₀ k' (Function.update live b (some barrierSize))
  | barrierDestroy {k k' : Ksys} {live : Live} {b : Nat} : ObjectRun M s₀ k live →
      b ∈ k.barrierGroot → threadBarrierDestroy M (some b) k = .ok (.errno .success, k') →
      ObjectRun M s₀ k' (Function.update live b none)
  | mutexesCleanup {k k' : Ksys} {live : Live} {pid r : Int} : ObjectRun M s₀ k live →
      processMutexesCleanup M pid k = .ok (r, k') →
      ObjectRun M s₀ k' (dropped k.mutexPid pid k.mutexGroot live)
  | barriersCleanup {k k' : Ksys} {live : Live} {pid r : Int} : ObjectRun M s₀ k live →
      processBarriersCleanup M pid k = .ok (r, k') →
      ObjectRun M s₀ k' (dropped k.barrierPid pid k.barrierGroot live)
  | other {k k' : Ksys} {live live' : Live} : ObjectRun M s₀ k live →
      (SlabRun M.kernel s₀ k.sys.kmem live → SlabRun M.kernel s₀ k'.sys.kmem live') →
      (∀ x, x ∈ k.mutexGroot ∨ x ∈ k.barrierGroot → live' x = live x) →
      k'.mutexGroot = k.mutexGroot → k'.barrierGroot = k.barrierGroot →
      k'.mutexPid = k.mutexPid → k'.barrierPid = k.barrierPid → ObjectRun M s₀ k' live'

/-! ## The items are live objects -/

/-- The items of a list are live objects of one size, and each stands there once. -/
structure Items (live : Live) (groot : List Nat) (size : Nat) : Prop where
  sized : ∀ x ∈ groot, live x = some size
  nodup : groot.Nodup

section
variable {live : Live} {groot groot' : List Nat} {size size' x : Nat} {pidOf : Nat → Int}
  {pid : Int}

theorem Items.ne_none (h : Items live groot size) (hx : x ∈ groot) : live x ≠ none := by
  simp [h.sized x hx]

/-- A change of what is not in the list. -/
theorem Items.congr {live' : Live} (h : Items live groot size)
    (hsame : ∀ x ∈ groot, live' x = live x) : Items live' groot size :=
  ⟨fun x hx => (hsame x hx).trans (h.sized x hx), h.nodup⟩

theorem Items.update {v : Option Nat} (h : Items live groot size) (hx : x ∉ groot) :
    Items (Function.update live x v) groot size := by
  refine h.congr fun y hy => Function.update_of_ne ?_ _ _
  rintro rfl
  exact hx hy

/-- A new object at the end of the list. -/
theorem Items.add (h : Items live groot size) (hdead : live x = none) :
    Items (Function.update live x (some size)) (groot ++ [x]) size := by
  have hx : x ∉ groot := fun hx => h.ne_none hx hdead
  constructor
  · intro y hy
    rcases List.mem_append.mp hy with hold | hnew
    · exact (h.update hx).sized y hold
    · rw [List.mem_singleton.mp hnew, Function.update_self]
  · exact List.nodup_append.mpr ⟨h.nodup, List.nodup_singleton x, fun a ha b hb e =>
      hx (List.mem_singleton.mp hb ▸ e ▸ ha)⟩

/-- An item that is unlinked and freed. -/
theorem Items.remove (h : Items live groot size) :
    Items (Function.update live x none) (groot.filter (· ≠ x)) size := by
  constructor
  · intro y hy
    obtain ⟨hmem, hne⟩ := List.mem_filter.mp hy
    rw [Function.update_of_ne (of_decide_eq_true hne)]
    exact h.sized y hmem
  · exact h.nodup.filter _

/-- The clean-up of the list itself. -/
theorem Items.dropped (h : Items live groot size) :
    Items (dropped pidOf pid groot live) (groot.filter fun x => pidOf x ≠ pid) size := by
  constructor
  · intro y hy
    obtain ⟨hmem, hne⟩ := List.mem_filter.mp hy
    have hkeep : ¬ (y ∈ groot ∧ pidOf y = pid) := fun hy => of_decide_eq_true hne hy.2
    rw [Ksys.dropped, if_neg hkeep]
    exact h.sized y hmem
  · exact h.nodup.filter _

/-- An item of one list is none of the other, which is for objects of another size. -/
theorem Items.apart (h : Items live groot size) (h' : Items live groot' size')
    (hne : size ≠ size') (hx : x ∈ groot) : x ∉ groot' := by
  intro hx'
  exact hne (Option.some.inj ((h.sized x hx).symm.trans (h'.sized x hx')))

/-- The clean-up of the other list. -/
theorem Items.dropped_other (h : Items live groot size) (h' : Items live groot' size')
    (hne : size ≠ size') : Items (Ksys.dropped pidOf pid groot' live) groot size :=
  h.congr fun _ hx => if_neg fun hx' => h.apart h' hne hx hx'.1

end

/-- The mutexes and the barriers that exist are live objects. -/
structure Registered (M : Machine) (s₀ : Kmem) (k : Ksys) (live : Live) : Prop where
  slab : SlabRun M.kernel s₀ k.sys.kmem live
  mutexes : Items live k.mutexGroot mutexSize
  barriers : Items live k.barrierGroot barrierSize

section
variable {M : Machine} {s₀ : Kmem} {k k' : Ksys} {live : Live} {x : Nat} {pid : Int}

theorem mutexSize_ne_barrierSize : mutexSize ≠ barrierSize := by decide

/-- `kmalloc` gives an object that was not live. -/
theorem kmalloc_dead {kmem : Kmem} {size : Nat} (h : SlabRun M.kernel s₀ k.sys.kmem live)
    (hsize : size ≤ pageSize) (havail : PageAvailable M.kernel k.sys.kmem size)
    (hk : kmalloc M.kernel size k.sys.kmem = some (x, kmem)) :
    live x = none ∧ SlabRun M.kernel s₀ kmem (Function.update live x (some size)) := by
  obtain ⟨y, s', heq, hdead, -⟩ := (slabRun_safe h).kmalloc_ok size hsize havail
  rw [heq] at hk
  cases hk
  exact ⟨hdead, h.kmalloc hsize havail heq⟩

theorem Registered.mutexInit {e : Ret} (h : Registered M s₀ k live)
    (havail : PageAvailable M.kernel k.sys.kmem mutexSize)
    (hcall : threadMutexInit M k = .ok ((e, some x), k')) :
    Registered M s₀ k' (Function.update live x (some mutexSize)) := by
  unfold threadMutexInit at hcall
  split at hcall
  · exact absurd hcall (by simp)
  rename_i m kmem hk
  simp only at hcall
  split at hcall
  · exact absurd hcall (by simp)
  cases hcall
  obtain ⟨hdead, hrun⟩ := kmalloc_dead h.slab (by decide) havail hk
  exact ⟨hrun, h.mutexes.add hdead, h.barriers.update fun hb => h.barriers.ne_none hb hdead⟩

theorem Registered.barrierInit {e : Ret} {count : Nat} (h : Registered M s₀ k live)
    (havail : PageAvailable M.kernel k.sys.kmem barrierSize)
    (hcall : threadBarrierInit M none count k = .ok ((e, some x), k')) :
    Registered M s₀ k' (Function.update live x (some barrierSize)) := by
  unfold threadBarrierInit at hcall
  split at hcall
  · exact absurd hcall (by simp)
  rename_i hcount
  simp only at hcall
  split at hcall
  · exact absurd hcall (by simp)
  rename_i b kmem hk
  split at hcall
  · exact absurd hcall (by simp)
  cases hcall
  obtain ⟨hdead, hrun⟩ := kmalloc_dead h.slab (by decide) havail hk
  refine ⟨?_, h.mutexes.update fun hm => h.mutexes.ne_none hm hdead, h.barriers.add hdead⟩
  simp only [modSys, Kernel.threadBarrierInit, if_neg hcount]
  exact hrun

theorem Registered.mutexDestroy (h : Registered M s₀ k live) (hx : x ∈ k.mutexGroot)
    (hcall : threadMutexDestroy M (some x) k = .ok (.errno .success, k')) :
    Registered M s₀ k' (Function.update live x none) := by
  unfold threadMutexDestroy at hcall
  simp only at hcall
  split at hcall
  · exact absurd hcall (by simp)
  split at hcall
  · exact absurd hcall (by simp)
  split at hcall
  · exact absurd hcall (by simp)
  rename_i kmem hk
  cases hcall
  exact ⟨h.slab.kfree (h.mutexes.ne_none hx) hk, h.mutexes.remove,
    h.barriers.update (h.mutexes.apart h.barriers mutexSize_ne_barrierSize hx)⟩

theorem Registered.barrierDestroy (h : Registered M s₀ k live) (hx : x ∈ k.barrierGroot)
    (hcall : threadBarrierDestroy M (some x) k = .ok (.errno .success, k')) :
    Registered M s₀ k' (Function.update live x none) := by
  unfold threadBarrierDestroy at hcall
  simp only at hcall
  split at hcall
  · exact absurd hcall (by simp)
  unfold spinLock at hcall
  split at hcall
  · exact absurd hcall (by simp [bind, Except.bind])
  simp only [bind, Except.bind] at hcall
  split at hcall
  · exact absurd hcall (by simp)
  split at hcall
  · exact absurd hcall (by simp)
  rename_i kmem hk
  cases hcall
  exact ⟨h.slab.kfree (h.barriers.ne_none hx) hk,
    h.mutexes.update (h.barriers.apart h.mutexes mutexSize_ne_barrierSize.symm hx),
    h.barriers.remove⟩

/-- `process_mutexes_cleanup` comes to its end. -/
theorem Registered.mutexesCleanup_ends (pid : Int) (h : Registered M s₀ k live) :
    ∃ groot kmem, processMutexesCleanup M pid k =
        .ok (0, { k with sys := { k.sys with kmem := kmem }, mutexGroot := groot }) ∧
      Cleans M.kernel s₀ k.mutexPid pid live k.mutexGroot groot k.sys.kmem kmem := by
  obtain ⟨groot, kmem, hloop, hcleans⟩ := cleanupGroot_cleans k.mutexPid pid
    h.slab h.mutexes.nodup fun _ hx => h.mutexes.ne_none hx
  refine ⟨groot, kmem, ?_, hcleans⟩
  rw [processMutexesCleanup, hloop]

/-- `process_barriers_cleanup` comes to its end. -/
theorem Registered.barriersCleanup_ends (pid : Int) (h : Registered M s₀ k live) :
    ∃ groot kmem, processBarriersCleanup M pid k =
        .ok (0, { k with sys := { k.sys with kmem := kmem }, barrierGroot := groot }) ∧
      Cleans M.kernel s₀ k.barrierPid pid live k.barrierGroot groot k.sys.kmem kmem := by
  obtain ⟨groot, kmem, hloop, hcleans⟩ := cleanupGroot_cleans k.barrierPid pid
    h.slab h.barriers.nodup fun _ hx => h.barriers.ne_none hx
  refine ⟨groot, kmem, ?_, hcleans⟩
  rw [processBarriersCleanup, hloop]

theorem Registered.mutexesCleanup {r : Int} (h : Registered M s₀ k live)
    (hcall : processMutexesCleanup M pid k = .ok (r, k')) :
    Registered M s₀ k' (dropped k.mutexPid pid k.mutexGroot live) := by
  obtain ⟨groot, kmem, heq, hcleans⟩ := h.mutexesCleanup_ends pid
  rw [heq] at hcall
  cases hcall
  exact ⟨hcleans.freed, hcleans.items ▸ h.mutexes.dropped,
    h.barriers.dropped_other h.mutexes mutexSize_ne_barrierSize.symm⟩

theorem Registered.barriersCleanup {r : Int} (h : Registered M s₀ k live)
    (hcall : processBarriersCleanup M pid k = .ok (r, k')) :
    Registered M s₀ k' (dropped k.barrierPid pid k.barrierGroot live) := by
  obtain ⟨groot, kmem, heq, hcleans⟩ := h.barriersCleanup_ends pid
  rw [heq] at hcall
  cases hcall
  exact ⟨hcleans.freed, h.mutexes.dropped_other h.barriers mutexSize_ne_barrierSize,
    hcleans.items ▸ h.barriers.dropped⟩

theorem ObjectRun.registered (h : ObjectRun M s₀ k live) : Registered M s₀ k live := by
  induction h with
  | @init k hk =>
    refine ⟨?_, ⟨by simp [ksynchroInit], List.nodup_nil⟩, ⟨by simp [ksynchroInit], List.nodup_nil⟩⟩
    change SlabRun M.kernel s₀ k.sys.kmem _
    rw [hk]
    exact .init
  | mutexInit _ havail hcall ih => exact ih.mutexInit havail hcall
  | mutexDestroy _ hm hcall ih => exact ih.mutexDestroy hm hcall
  | barrierInit _ havail hcall ih => exact ih.barrierInit havail hcall
  | barrierDestroy _ hb hcall ih => exact ih.barrierDestroy hb hcall
  | mutexesCleanup _ hcall ih => exact ih.mutexesCleanup hcall
  | barriersCleanup _ hcall ih => exact ih.barriersCleanup hcall
  | other _ hslab hsame hmutexes hbarriers _ _ ih =>
    refine ⟨hslab ih.slab, ?_, ?_⟩
    · rw [hmutexes]
      exact ih.mutexes.congr fun x hx => hsame x (.inl hx)
    · rw [hbarriers]
      exact ih.barriers.congr fun x hx => hsame x (.inr hx)

end

/-! ## The clean-up of a process -/

/-- In every run the two functions return 0 for every process, and change nothing but their
list and the memory of the allocator: exactly the mutexes, or barriers, of the process are
unlinked and freed, and what every other live object holds is what it was. -/
theorem processCleanups_exact {M : Machine} {s₀ : Kmem} {k : Ksys} {live : Live}
    (h : ObjectRun M s₀ k live) (pid : Int) :
    (∃ groot kmem, processMutexesCleanup M pid k =
        .ok (0, { k with sys := { k.sys with kmem := kmem }, mutexGroot := groot }) ∧
      Cleans M.kernel s₀ k.mutexPid pid live k.mutexGroot groot k.sys.kmem kmem) ∧
    ∃ groot kmem, processBarriersCleanup M pid k =
        .ok (0, { k with sys := { k.sys with kmem := kmem }, barrierGroot := groot }) ∧
      Cleans M.kernel s₀ k.barrierPid pid live k.barrierGroot groot k.sys.kmem kmem :=
  ⟨h.registered.mutexesCleanup_ends pid, h.registered.barriersCleanup_ends pid⟩

/-- Where the live objects are the mutexes and barriers of one process, its end gives every
page of the heap back. -/
theorem processCleanups_at_rest {M : Machine} {s₀ : Kmem} {k : Ksys} {live : Live}
    (h : ObjectRun M s₀ k live) (pid : Int)
    (hall : ∀ x, live x ≠ none → x ∈ k.mutexGroot ∧ k.mutexPid x = pid ∨
      x ∈ k.barrierGroot ∧ k.barrierPid x = pid) :
    ∃ k₁ k₂, processMutexesCleanup M pid k = .ok (0, k₁) ∧
      processBarriersCleanup M pid k₁ = .ok (0, k₂) ∧ k₂.mutexGroot = [] ∧ k₂.barrierGroot = [] ∧
      ∃ pages, Rep (cells M.kernel) k₂.sys.kmem (M.kernel.slab 0) pages ∧
        pages.Perm ((List.range M.kernel.nbPages).map M.kernel.pageAddr) := by
  obtain ⟨groot, kmem, hmutexes, hcleans⟩ := h.registered.mutexesCleanup_ends pid
  have hrun := h.mutexesCleanup hmutexes
  obtain ⟨groot', kmem', hbarriers, hcleans'⟩ := hrun.registered.barriersCleanup_ends pid
  have hnone : ∀ x, dropped k.barrierPid pid k.barrierGroot
      (dropped k.mutexPid pid k.mutexGroot live) x = none := by
    intro x
    by_contra hx
    have hdrop : ¬ (x ∈ k.barrierGroot ∧ k.barrierPid x = pid) := fun hb => hx (if_pos hb)
    rw [dropped, if_neg hdrop] at hx
    have hdrop' : ¬ (x ∈ k.mutexGroot ∧ k.mutexPid x = pid) := fun hm => hx (if_pos hm)
    rw [dropped, if_neg hdrop'] at hx
    exact (hall x hx).elim hdrop' hdrop
  have hend := (hrun.barriersCleanup hbarriers).registered
  have hempty : ∀ {l : List Nat} {n : Nat}, Items (dropped k.barrierPid pid k.barrierGroot
      (dropped k.mutexPid pid k.mutexGroot live)) l n → l = [] := by
    intro l n hl
    exact List.eq_nil_iff_forall_not_mem.mpr fun x hx => hl.ne_none hx (hnone x)
  exact ⟨_, _, hmutexes, hbarriers, hempty hend.mutexes, hempty hend.barriers,
    ((slabRun_safe hend.slab).at_rest hnone).1⟩

/-- The first thread, of process 0, makes a mutex. -/
theorem objectRun_mutex : ∃ k, ObjectRun smallMachine usedMem k
      (Function.update (fun _ => none) 4096 (some mutexSize)) ∧
    k.mutexGroot = [4096] ∧ k.mutexPid 4096 = 0 ∧ k.barrierGroot = [] := by
  obtain ⟨kmem, hk⟩ := kmalloc_booted mutexSize (by decide)
  have hk' : kmalloc smallMachine.kernel mutexSize (ksynchroInit booted).sys.kmem =
      some (4096, kmem) := hk
  have hinit : ∃ k, threadMutexInit smallMachine (ksynchroInit booted) =
      .ok ((.errno .success, some 4096), k) ∧ k.mutexGroot = [4096] ∧ k.mutexPid 4096 = 0 ∧
      k.barrierGroot = [] := by
    rw [threadMutexInit, hk']
    exact ⟨_, rfl, rfl, rfl, rfl⟩
  obtain ⟨k, hcall, hfacts⟩ := hinit
  have hstart : ObjectRun smallMachine usedMem (ksynchroInit booted) fun _ => none := .init rfl
  exact ⟨k, hstart.mutexInit (.inr (by decide)) hcall, hfacts⟩

/-- The end of process 0 frees the mutex, and that of another process does not. -/
theorem processCleanups_exact_mutex : ∃ k groot kmem, k.mutexGroot = [4096] ∧
    processMutexesCleanup smallMachine 0 k =
      .ok (0, { k with sys := { k.sys with kmem := kmem }, mutexGroot := groot }) ∧
    groot = [] := by
  obtain ⟨k, hrun, hgroot, hpid, -⟩ := objectRun_mutex
  obtain ⟨⟨groot, kmem, hcall, hcleans⟩, -⟩ := processCleanups_exact hrun 0
  refine ⟨k, groot, kmem, hgroot, hcall, ?_⟩
  rw [hcleans.items, hgroot]
  simp [hpid]

/-- The end of process 0 gives back the page of its mutex. -/
theorem processCleanups_at_rest_mutex : ∃ k k₁ k₂, k.mutexGroot = [4096] ∧
    processMutexesCleanup smallMachine 0 k = .ok (0, k₁) ∧
    processBarriersCleanup smallMachine 0 k₁ = .ok (0, k₂) ∧ k₂.mutexGroot = [] := by
  obtain ⟨k, hrun, hgroot, hpid, -⟩ := objectRun_mutex
  obtain ⟨k₁, k₂, hmutexes, hbarriers, hempty, -⟩ := processCleanups_at_rest hrun 0 (by
    intro x hx
    by_cases hne : x = 4096
    · exact .inl ⟨hne ▸ hgroot ▸ List.mem_singleton_self _, hne ▸ hpid⟩
    · rw [Function.update_of_ne hne] at hx
      exact absurd rfl hx)
  exact ⟨k, k₁, k₂, hgroot, hmutexes, hbarriers, hempty⟩

end Ksys

end Ko6.Kernel
