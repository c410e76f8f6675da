import Ko6.Kernel.ThreadSteps
import Ko6.Lib.RoundRobin

set_option autoImplicit false

/-!
# Kernel: the turns of the threads

`sched_elect` takes the first `READY` thread of the table after the current one.  The
table is circular, and the calls between two switches may change it as they like: they
create threads in empty places, put threads to sleep, wake them up and destroy them.
None of them writes `ThreadCurrentIdx`, so a thread that keeps its place and stays
`READY` has its turn after those that are ahead of it, each of them once at most.
-/

namespace Ko6.Kernel

open Ko6.Lib Ko6.Common

variable {M : Machine} {s s' : Sys} {th i t : Nat}

/-! ## Election -/

/-- The loop over `n` entries is a search in their order. -/
theorem electLoop_eq (n a : Nat) : electLoop M s n (a % M.threadMax) =
    ((List.range n).map fun k => (a + k) % M.threadMax).find? (readyAt s) := by
  induction n generalizing a with
  | zero => rfl
  | succ n ih =>
    have hshift : ((List.range n).map fun k => (a + (k + 1)) % M.threadMax) =
        (List.range n).map fun k => (a + 1 + k) % M.threadMax := by
      refine List.map_congr_left fun k _ => ?_
      rw [Nat.add_assoc a 1 k, Nat.add_comm 1 k]
    rw [List.range_succ_eq_map, List.map_cons, List.map_map, List.find?_cons, Nat.add_zero]
    unfold electLoop
    cases hready : readyAt s (a % M.threadMax) with
    | true => simp
    | false =>
      simp only [Bool.false_eq_true, if_false]
      rw [Nat.mod_add_mod, ih (a + 1), ← hshift]
      rfl

/-- `sched_elect` takes turns. -/
theorem schedElect_eq :
    schedElect M s = RoundRobin.elect M.threadMax (readyAt s) s.threadCurrentIdx :=
  electLoop_eq M.threadMax (s.threadCurrentIdx + 1)

/-- The thread at place `th` is the first `READY` one after the current one. -/
structure FirstReady (M : Machine) (s : Sys) (th : Nat) : Prop where
  ready : readyAt s th = true
  first : ∃ k, k < M.threadMax ∧ (s.threadCurrentIdx + 1 + k) % M.threadMax = th ∧
    ∀ j, j < k → readyAt s ((s.threadCurrentIdx + 1 + j) % M.threadMax) = false
  /-- The current thread itself is the last one. -/
  self : th = s.threadCurrentIdx → ∀ i, i < M.threadMax → readyAt s i = true → i = th

/-- With a `READY` thread in the table `sched_elect` takes the first one. -/
theorem schedElect_first (hcur : s.threadCurrentIdx < M.threadMax) (hi : i < M.threadMax)
    (hready : readyAt s i = true) : ∃ th, schedElect M s = some th ∧ FirstReady M s th := by
  rw [schedElect_eq]
  obtain ⟨th, helect⟩ := RoundRobin.exists_elect hcur hi hready
  obtain ⟨hth, k, ⟨hk, hkth⟩, hbefore⟩ := RoundRobin.elect_eq_some_iff.mp helect
  refine ⟨th, helect, hth, ⟨k, hk, hkth, hbefore⟩, ?_⟩
  rintro rfl j hj hjready
  exact RoundRobin.elect_self hcur helect hj hjready

/-! ## Switches -/

theorem readyAt_iff : readyAt s i = true ↔ ∃ t, s.threadTab i = some t ∧
    (s.thread t).state = .ready := by
  unfold readyAt
  cases s.threadTab i with
  | none => simp
  | some t => simp

/-- The elected thread is the current one after the switch. -/
theorem schedSwitch_idx (h : schedSwitch M s = some s') :
    schedElect M s = some s'.threadCurrentIdx := by
  unfold schedSwitch at h
  cases helect : schedElect M s with
  | none => simp [helect] at h
  | some th =>
    simp only [helect, Option.bind_eq_bind, Option.bind_some, Option.some.injEq] at h
    subst h
    by_cases hne : th = s.threadCurrentIdx
    · simp [hne, Sys.setState, Sys.modThread]
    · simp [hne, Sys.setState, Sys.modThread]

/-- The switch itself returns when there is a `READY` thread. -/
theorem exists_schedSwitch (h : schedElect M s = some th) : ∃ s', schedSwitch M s = some s' := by
  unfold schedSwitch
  rw [h]
  exact ⟨_, rfl⟩

/-- The thread `t` is `READY` and has the place `i` of the table. -/
def Waits (s : Sys) (i t : Nat) : Prop := s.threadTab i = some t ∧ (s.thread t).state = .ready

/-- The switches between two states, with the places they elect, in order.  At each of
them `t` is `READY` at its place `i`.  In between the system may do what it wants, but
it does not write `ThreadCurrentIdx`. -/
inductive SchedRun (M : Machine) (i t : Nat) (s₀ : Sys) : List Nat → Sys → Prop where
  | init : SchedRun M i t s₀ [] s₀
  | switch {ths : List Nat} {s s' : Sys} : SchedRun M i t s₀ ths s → Waits s i t →
      schedSwitch M s = some s' → SchedRun M i t s₀ (ths ++ [s'.threadCurrentIdx]) s'
  | other {ths : List Nat} {s s' : Sys} : SchedRun M i t s₀ ths s →
      s'.threadCurrentIdx = s.threadCurrentIdx → SchedRun M i t s₀ ths s'

/-- The switches of a run are choices in turn. -/
theorem SchedRun.choices {s₀ : Sys} {ths : List Nat} (h : SchedRun M i t s₀ ths s) :
    RoundRobin.Choices M.threadMax i s₀.threadCurrentIdx ths s.threadCurrentIdx := by
  induction h with
  | init => exact .nil _
  | switch _ hwait hswitch ih =>
    have helect := schedSwitch_idx hswitch
    rw [schedElect_eq] at helect
    exact ih.snoc (readyAt_iff.mpr ⟨t, hwait⟩) helect
  | other _ hidx ih =>
    rw [hidx]
    exact ih

/-! ## Calls between the switches -/

/-- What the calls do to the scheduler: `ThreadCurrentIdx` is not written, and a place
of the table that is taken stays so as long as it is not freed. -/
structure KeepsPlaces (es : List Event) (s s' : Sys) : Prop where
  idx : s'.threadCurrentIdx = s.threadCurrentIdx
  place : ∀ i t, s.threadTab i = some t → (∀ x, .slotFreed x i ∉ es) → s'.threadTab i = some t

theorem keepsPlaces_of_eq {es : List Event} (hidx : s'.threadCurrentIdx = s.threadCurrentIdx)
    (htab : s'.threadTab = s.threadTab) : KeepsPlaces es s s' :=
  ⟨hidx, fun i _ h _ => (congrFun htab i).trans h⟩

theorem KeepsPlaces.of_eq {es : List Event} {s₁ : Sys} (h : KeepsPlaces es s₁ s')
    (hidx : s₁.threadCurrentIdx = s.threadCurrentIdx) (htab : s₁.threadTab = s.threadTab) :
    KeepsPlaces es s s' :=
  ⟨h.idx.trans hidx, fun i t ht hfree => h.place i t ((congrFun htab i).trans ht) hfree⟩

theorem KeepsPlaces.events {es es' : List Event} (h : KeepsPlaces es s s')
    (hes : ∀ e ∈ es, e ∈ es') : KeepsPlaces es' s s' :=
  ⟨h.idx, fun i t ht hfree => h.place i t ht fun x hx => hfree x (hes _ hx)⟩

/-- A new thread gets an empty place. -/
theorem schedInsert_keeps {es : List Event} (h : schedInsert M t s = some s') :
    KeepsPlaces es s s' := by
  unfold schedInsert at h
  simp only [Option.bind_eq_bind, Option.bind_eq_some_iff, Option.some.injEq] at h
  obtain ⟨tid, hfind, rfl⟩ := h
  have hempty := List.find?_some hfind
  have htab : ∀ i u, s.threadTab i = some u →
      Function.update s.threadTab tid (some t) i = some u := by
    intro i u hu
    have hne : i ≠ tid := by
      rintro rfl
      rw [hu] at hempty
      exact absurd hempty (by simp)
    rw [Function.update_of_ne hne, hu]
  split
  · exact ⟨rfl, fun i u hu _ => htab i u hu⟩
  · exact ⟨rfl, fun i u hu _ => htab i u hu⟩

theorem threadCreate_keeps {e : Errno} {es : List Event} (h : threadCreate M s = some (e, s', es)) :
    KeepsPlaces es s s' := by
  unfold threadCreate at h
  simp only [Option.bind_eq_bind, Option.bind_eq_some_iff] at h
  obtain ⟨⟨thread, k⟩, -, h⟩ := h
  split at h
  · simp only [Option.some.injEq, Prod.mk.injEq] at h
    rw [← h.2.1]
    exact keepsPlaces_of_eq rfl rfl
  · simp only [Option.bind_eq_some_iff, Option.some.injEq, Prod.mk.injEq] at h
    obtain ⟨⟨top, u⟩, -, s₁, hinsert, -, rfl, -⟩ := h
    exact (schedInsert_keeps hinsert).of_eq rfl rfl

/-- A thread that is destroyed frees its own place. -/
theorem threadDestroy_keeps {es : List Event} (h : threadDestroy M t s = some (s', es)) :
    KeepsPlaces es s s' := by
  unfold threadDestroy at h
  split at h
  · exact absurd h (by simp)
  · simp only [Option.bind_eq_bind, Option.bind_eq_some_iff, Option.some.injEq,
      Prod.mk.injEq] at h
    obtain ⟨u, -, k, -, rfl, rfl⟩ := h
    refine ⟨rfl, fun i v hv hfree => ?_⟩
    have hne : i ≠ (s.thread t).tid := by
      rintro rfl
      exact hfree t (by simp)
    exact (Function.update_of_ne hne _ _).trans hv

theorem joinEnd_keeps {es : List Event} (h : joinEnd M t s = some (s', es)) :
    KeepsPlaces es s s' := by
  unfold joinEnd at h
  simp only [Option.bind_eq_bind, Option.bind_eq_some_iff, Option.some.injEq,
    Prod.mk.injEq] at h
  obtain ⟨⟨s₁, es₁⟩, hdestroy, rfl, rfl⟩ := h
  refine ((threadDestroy_keeps hdestroy).events fun e he => ?_).of_eq rfl rfl
  exact List.mem_cons_of_mem _ he

theorem threadJoin_keeps {x : Option Nat} {r : Option Errno} {es : List Event}
    (h : threadJoin M x s = some (r, s', es)) : KeepsPlaces es s s' := by
  unfold threadJoin at h
  cases x with
  | none =>
    simp only [Option.some.injEq, Prod.mk.injEq] at h
    rw [← h.2.1]
    exact keepsPlaces_of_eq rfl rfl
  | some x =>
    simp only [Option.bind_eq_bind] at h
    split at h
    · simp only [Option.some.injEq, Prod.mk.injEq] at h
      rw [← h.2.1]
      exact keepsPlaces_of_eq rfl rfl
    · simp only [Option.bind_eq_some_iff, Option.some.injEq, Prod.mk.injEq] at h
      obtain ⟨⟨s₁, es₁⟩, hend, -, rfl, rfl⟩ := h
      refine ((joinEnd_keeps hend).events fun e he => ?_).of_eq rfl rfl
      exact List.mem_append_left _ he

theorem threadWait_keeps {k : Context} {es : List Event} : KeepsPlaces es s (threadWait k s) := by
  unfold threadWait
  by_cases hrun : (s.thread s.threadCurrent).state = .running
  · simp only [hrun, if_true]
    exact keepsPlaces_of_eq rfl rfl
  · simp only [hrun, if_false]
    exact keepsPlaces_of_eq rfl rfl

theorem threadMutexLock_keeps {m : Option Nat} {es : List Event} :
    KeepsPlaces es s (threadMutexLock m s).2.1 := by
  unfold threadMutexLock
  split
  · exact keepsPlaces_of_eq rfl rfl
  · dsimp only
    split
    · exact keepsPlaces_of_eq rfl rfl
    split
    · exact threadWait_keeps.of_eq rfl rfl
    · exact keepsPlaces_of_eq rfl rfl

theorem threadMutexUnlock_keeps {m : Option Nat} {es : List Event} :
    KeepsPlaces es s (threadMutexUnlock m s).2.1 := by
  have hget : ∀ m, KeepsPlaces es s (listGetfirst wcells s (.mutex m)).2 := by
    intro m
    unfold listGetfirst
    split
    · exact keepsPlaces_of_eq rfl rfl
    · exact keepsPlaces_of_eq rfl rfl
  unfold threadMutexUnlock
  split
  · exact keepsPlaces_of_eq rfl rfl
  · dsimp only
    split
    · exact keepsPlaces_of_eq rfl rfl
    split
    · exact keepsPlaces_of_eq rfl rfl
    split
    · exact ⟨(hget _).idx, (hget _).place⟩
    · exact ⟨(hget _).idx, (hget _).place⟩

theorem threadBarrierWait_keeps {b : Option Nat} {r : Option Errno} {es : List Event}
    (h : threadBarrierWait b s = some (r, s', es)) : KeepsPlaces es s s' := by
  unfold threadBarrierWait at h
  cases b with
  | none =>
    simp only [Option.some.injEq, Prod.mk.injEq] at h
    rw [← h.2.1]
    exact keepsPlaces_of_eq rfl rfl
  | some b =>
    dsimp only at h
    split at h
    · simp only [Option.some.injEq, Prod.mk.injEq] at h
      rw [← h.2.1]
      exact keepsPlaces_of_eq rfl rfl
    split at h
    · simp only [Option.bind_eq_bind, Option.bind_eq_some_iff, Option.some.injEq,
        Prod.mk.injEq] at h
      obtain ⟨s₁, hloop, -, rfl, -⟩ := h
      let f : Sys → Nat × (Nat → Option Nat) := fun s => (s.threadCurrentIdx, s.threadTab)
      have hkeeps : ∀ s x, f (barrierRelease s x) = f s := fun _ _ => rfl
      unfold listForeach at hloop
      have hsame := foreachLoop_keeps hkeeps _ hloop
      rw [Prod.mk.injEq] at hsame
      exact keepsPlaces_of_eq hsame.1 hsame.2
    · simp only [Option.some.injEq, Prod.mk.injEq] at h
      rw [← h.2.1]
      exact threadWait_keeps.of_eq rfl rfl

/-- Every call keeps the places. -/
theorem doCall_keeps {c : Call} {r : Option Errno} {es : List Event}
    (h : doCall M c s = some (r, s', es)) : KeepsPlaces es s s' := by
  cases c with
  | create =>
    simp only [doCall, Option.map_eq_some_iff, Prod.mk.injEq] at h
    obtain ⟨⟨e, s₁, es₁⟩, hcreate, -, rfl, rfl⟩ := h
    exact threadCreate_keeps hcreate
  | yield =>
    simp only [doCall, Option.some.injEq, Prod.mk.injEq] at h
    rw [← h.2.1]
    exact keepsPlaces_of_eq rfl rfl
  | exit v =>
    simp only [doCall, Option.some.injEq, Prod.mk.injEq] at h
    have hexit : s' = (threadExit v s).1 := by rw [h.2]
    rw [hexit]
    unfold threadExit
    dsimp only
    split
    · exact keepsPlaces_of_eq rfl rfl
    · exact keepsPlaces_of_eq rfl rfl
  | join x => exact threadJoin_keeps h
  | lock m =>
    simp only [doCall, Option.some.injEq] at h
    have hlock := @threadMutexLock_keeps s m es
    rwa [h] at hlock
  | unlock m =>
    simp only [doCall, Option.some.injEq, Prod.mk.injEq] at h
    rw [← h.2.1]
    exact threadMutexUnlock_keeps
  | barrierWait b => exact threadBarrierWait_keeps h

/-- So does the end of a call. -/
theorem resume_keeps {es : List Event} (h : resume M s = some (s', es)) : KeepsPlaces es s s' := by
  unfold resume at h
  dsimp only at h
  split at h
  any_goals
    simp only [Option.some.injEq, Prod.mk.injEq] at h
    rw [← h.1]
    exact keepsPlaces_of_eq rfl rfl
  exact (joinEnd_keeps h).of_eq rfl rfl

theorem schedSwitch_tab (h : schedSwitch M s = some s') : s'.threadTab = s.threadTab := by
  unfold schedSwitch at h
  simp only [Option.bind_eq_bind, Option.bind_eq_some_iff, Option.some.injEq] at h
  obtain ⟨th, -, rfl⟩ := h
  split <;> rfl

/-- The steps of the machine, with the places that the switches elect.  The thread `t`
stays `READY`, and its place is not freed. -/
inductive TurnRun (M : Machine) (i t : Nat) (s₀ : Sys) : List Nat → Sys → Prop where
  | init : TurnRun M i t s₀ [] s₀
  | step {ths : List Nat} {s s' : Sys} {c : Option Call} {es : List Event} :
      TurnRun M i t s₀ ths s → (s.thread t).state = .ready → (∀ x, .slotFreed x i ∉ es) →
      Step M s c es s' →
      TurnRun M i t s₀ (if c = none then ths ++ [s'.threadCurrentIdx] else ths) s'

/-- The thread keeps its place, and the switches are those of the scheduler. -/
theorem TurnRun.schedRun {s₀ : Sys} {ths : List Nat} (h₀ : s₀.threadTab i = some t)
    (h : TurnRun M i t s₀ ths s) : SchedRun M i t s₀ ths s ∧ s.threadTab i = some t := by
  induction h with
  | init => exact ⟨.init, h₀⟩
  | step _ hready hfree hstep ih =>
    obtain ⟨hrun, htab⟩ := ih
    cases hstep with
    | call _ hcall =>
      have hkeeps := doCall_keeps hcall
      exact ⟨hrun.other hkeeps.idx, hkeeps.place i t htab hfree⟩
    | switch _ hswitch hresume =>
      have hkeeps := resume_keeps hresume
      rw [if_pos rfl, hkeeps.idx]
      refine ⟨(hrun.switch ⟨htab, hready⟩ hswitch).other hkeeps.idx, ?_⟩
      exact hkeeps.place i t ((congrFun (schedSwitch_tab hswitch) i).trans htab) hfree

/-! ## Fairness -/

/-- The turn of a `READY` thread comes after the elections of at most `THREAD_MAX - 1`
others; there is always one to elect. -/
structure Turn (M : Machine) (i t : Nat) (ths : List Nat) (s : Sys) : Prop where
  others : ths.length ≤ M.threadMax - 1
  elects : Waits s i t → ∃ s', schedSwitch M s = some s' ∧
    (ths.length = M.threadMax - 1 → s'.threadCurrentIdx = i)

theorem SchedRun.turn {s₀ : Sys} {ths : List Nat} (hrun : SchedRun M i t s₀ ths s)
    (hcur : s₀.threadCurrentIdx < M.threadMax) (hi : i < M.threadMax)
    (hothers : ∀ th ∈ ths, th ≠ i) : Turn M i t ths s := by
  have hchoices := hrun.choices
  have hlt := hchoices.length_lt hcur hi hothers
  refine ⟨by omega, fun hwait => ?_⟩
  have hready : readyAt s i = true := readyAt_iff.mpr ⟨t, hwait⟩
  obtain ⟨th, helect, -⟩ := schedElect_first (hchoices.lt hcur) hi hready
  obtain ⟨s', hswitch⟩ := exists_schedSwitch helect
  refine ⟨s', hswitch, fun hlen => ?_⟩
  have helect' := schedSwitch_idx hswitch
  rw [schedElect_eq] at helect'
  exact hchoices.next hcur hi hothers (by omega) hready helect'

/-- `sched_elect` takes the first `READY` thread after the current one.  While `t` stays
`READY` at its place, at most `THREAD_MAX - 1` elections of other places come one after
another, and then `t` is elected: whatever the system does between the switches, and in
every run of the calls of the machine in which `t` is not destroyed. -/
theorem sched_roundRobin (M : Machine) :
    (∀ s i, s.threadCurrentIdx < M.threadMax → i < M.threadMax → readyAt s i = true →
      ∃ th, schedElect M s = some th ∧ FirstReady M s th) ∧
    (∀ s₀ s i t ths, s₀.threadCurrentIdx < M.threadMax → i < M.threadMax →
      SchedRun M i t s₀ ths s → (∀ th ∈ ths, th ≠ i) → Turn M i t ths s) ∧
    ∀ s₀ s i t ths, s₀.threadCurrentIdx < M.threadMax → i < M.threadMax →
      s₀.threadTab i = some t → TurnRun M i t s₀ ths s → (∀ th ∈ ths, th ≠ i) →
      s.threadTab i = some t ∧ Turn M i t ths s := by
  refine ⟨fun s i hcur hi hready => schedElect_first hcur hi hready, ?_, ?_⟩
  · intro s₀ s i t ths hcur hi hrun hothers
    exact hrun.turn hcur hi hothers
  · intro s₀ s i t ths hcur hi htab hrun hothers
    obtain ⟨hsched, htab'⟩ := hrun.schedRun htab
    exact ⟨htab', hsched.turn hcur hi hothers⟩

/-- With two threads the one that waits has the next turn. -/
theorem sched_roundRobin_twoThreads :
    (∃ th, schedElect smallMachine twoThreads = some th ∧
      FirstReady smallMachine twoThreads th) ∧
    Turn smallMachine 1 8192 [] twoThreads := by
  have helect := (sched_roundRobin smallMachine).1 twoThreads 1 (by decide) (by decide) (by decide)
  have hturn := (sched_roundRobin smallMachine).2.2 twoThreads twoThreads 1 8192 [] (by decide)
    (by decide) (by decide) .init (by simp)
  exact ⟨helect, hturn.2⟩

end Ko6.Kernel
