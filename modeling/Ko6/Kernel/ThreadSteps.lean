import Ko6.Kernel.Kthread

set_option autoImplicit false

/-!
# Kernel: what a switch does, and runs of the machine

`sched_switch` changes the current thread to some `READY` thread of the table and
makes it `RUNNING`; nothing else about the threads changes.  The statements about
mutexes, barriers and the life of threads are about the runs defined here, each
with the calls it allows.
-/

namespace Ko6.Kernel

open Ko6.Lib Ko6.Common

namespace Sys

variable {s : Sys} {t u : Nat} {f : Thread → Thread} {st : ThState} {c : Context}

/-- A thread that is in the table. -/
def Existing (M : Machine) (s : Sys) (t : Nat) : Prop :=
  ∃ i, i < M.threadMax ∧ s.threadTab i = some t

theorem existing_congr {M : Machine} {s' : Sys} (htab : s'.threadTab = s.threadTab) (t : Nat) :
    s'.Existing M t ↔ s.Existing M t := by
  rw [Existing, Existing, htab]

@[simp] theorem modThread_self : (s.modThread t f).thread t = f (s.thread t) :=
  Function.update_self ..

@[simp] theorem modThread_of_ne (h : u ≠ t) : (s.modThread t f).thread u = s.thread u :=
  Function.update_of_ne h ..

@[simp] theorem setState_self : (s.setState t st).thread t = { s.thread t with state := st } :=
  Function.update_self ..

@[simp] theorem setState_of_ne (h : u ≠ t) : (s.setState t st).thread u = s.thread u :=
  Function.update_of_ne h ..

@[simp] theorem setContext_self :
    (s.setContext t c).thread t = { s.thread t with context := c } :=
  Function.update_self ..

@[simp] theorem setContext_of_ne (h : u ≠ t) : (s.setContext t c).thread u = s.thread u :=
  Function.update_of_ne h ..

/-- A list does not depend on the other fields. -/
theorem rep_congr {s' : Sys} {root : Cell} {xs : List Cell} (h : Rep wcells s root xs)
    (hnext : s'.next = s.next) (hprev : s'.prev = s.prev) : Rep wcells s' root xs :=
  h.congr (fun a _ => congrFun hnext a) (fun a _ => congrFun hprev a)

/-- The list operations write links only. -/
theorem of_touches {s₁ : Sys} {X : List Cell} (h : Touches wcells X s s₁) :
    s₁ = { s with next := s₁.next, prev := s₁.prev } := by
  have hfields := h _ (fun s => (s.thread, s.threadTab, s.threadCurrentIdx, s.threadCurrent,
    s.mutex, s.barrier, s.kmem, s.umem)) fun _ _ => ⟨fun _ _ => rfl, fun _ _ => rfl⟩
  simp only [Prod.mk.injEq] at hfields
  obtain ⟨h1, h2, h3, h4, h5, h6, h7, h8⟩ := hfields
  rw [← h1, ← h2, ← h3, ← h4, ← h5, ← h6, ← h7, ← h8]

end Sys

/-! ## Election -/

section
variable {M : Machine} {s s₁ : Sys} {th n : Nat}

theorem electLoop_spec : ∀ (n : Nat) {start : Nat}, start < M.threadMax →
    electLoop M s n start = some th → th < M.threadMax ∧ readyAt s th = true := by
  intro n
  induction n with
  | zero =>
    intro start _ h
    exact absurd h (by simp [electLoop])
  | succ n ih =>
    intro start hstart h
    rw [electLoop] at h
    split at h
    · rename_i hready
      rw [Option.some.injEq] at h
      exact h ▸ ⟨hstart, hready⟩
    · exact ih (Nat.mod_lt _ M.max_pos) h

/-- The elected thread is a `READY` thread of the table. -/
theorem schedElect_spec (h : schedElect M s = some th) :
    th < M.threadMax ∧ ∃ t, s.threadTab th = some t ∧ (s.thread t).state = .ready := by
  obtain ⟨hlt, hready⟩ := electLoop_spec _ (Nat.mod_lt _ M.max_pos) h
  refine ⟨hlt, ?_⟩
  rw [readyAt] at hready
  split at hready
  · exact absurd hready (by simp)
  · rename_i t ht
    exact ⟨t, ht, by simpa using hready⟩

/-- The state in which thread `t`, at entry `th` of the table, goes on in its own
code. -/
def Sys.elect (s : Sys) (th t : Nat) : Sys :=
  (Sys.setState { s with threadCurrentIdx := th, threadCurrent := t } t .running).setContext t
    .user

theorem Sys.elect_self {t : Nat} :
    (s.elect th t).thread t = { s.thread t with state := .running, context := .user } := by
  rw [Sys.elect, Sys.setContext_self, Sys.setState_self]

theorem Sys.elect_of_ne {t u : Nat} (h : u ≠ t) : (s.elect th t).thread u = s.thread u := by
  rw [Sys.elect, Sys.setContext_of_ne h, Sys.setState_of_ne h]

/-- `sched_switch` and the end of the call of the elected thread: a `READY` thread
becomes the current one and `RUNNING`. -/
theorem schedSwitch_spec (hcur : s.threadTab s.threadCurrentIdx = some s.threadCurrent)
    (h : schedSwitch M s = some s₁) :
    ∃ th t, th < M.threadMax ∧ s.threadTab th = some t ∧ (s.thread t).state = .ready ∧
      resume M s₁ = match (s.thread t).context with
        | .inJoin x => joinEnd M x (s.elect th t)
        | .inLock m => some (s.elect th t, [.lockTaken t m])
        | .inBarrier b => some (s.elect th t, [.barrierPassed t b])
        | _ => some (s.elect th t, []) := by
  obtain ⟨th, hth, hs₁⟩ := Option.bind_eq_some_iff.mp h
  obtain ⟨hlt, t, ht, hready⟩ := schedElect_spec hth
  refine ⟨th, t, hlt, ht, hready, ?_⟩
  have hs₁' : s₁ = Sys.setState { s with threadCurrentIdx := th, threadCurrent := t } t
      .running := by
    rw [Option.some.injEq] at hs₁
    rw [← hs₁]
    by_cases hidx : th = s.threadCurrentIdx
    · -- the thread has been elected again
      subst hidx
      rw [ht, Option.some.injEq] at hcur
      simp only [ne_eq, not_true_eq_false, if_false, hcur]
    · simp only [ne_eq, hidx, not_false_eq_true, if_true, ht, Option.getD_some]
  subst hs₁'
  have hthread : (Sys.setState { s with threadCurrentIdx := th, threadCurrent := t } t
      .running).thread t = { s.thread t with state := .running } := Sys.setState_self
  have hcurrent : (Sys.setState { s with threadCurrentIdx := th, threadCurrent := t } t
      .running).threadCurrent = t := rfl
  rw [resume, hcurrent, hthread]
  cases hctx : (s.thread t).context <;> rfl

/-- The same for a switch whose end is known. -/
theorem switch_spec {s' : Sys} {es : List Event}
    (hcur : s.threadTab s.threadCurrentIdx = some s.threadCurrent)
    (h : schedSwitch M s = some s₁) (hres : resume M s₁ = some (s', es)) :
    ∃ th t, th < M.threadMax ∧ s.threadTab th = some t ∧ (s.thread t).state = .ready ∧
      match (s.thread t).context with
      | .inJoin x => joinEnd M x (s.elect th t) = some (s', es)
      | .inLock m => s' = s.elect th t ∧ es = [.lockTaken t m]
      | .inBarrier b => s' = s.elect th t ∧ es = [.barrierPassed t b]
      | _ => s' = s.elect th t ∧ es = [] := by
  obtain ⟨th, t, hlt, ht, hready, hend⟩ := schedSwitch_spec hcur h
  refine ⟨th, t, hlt, ht, hready, ?_⟩
  rw [hres] at hend
  cases hctx : (s.thread t).context <;> simp only [hctx] at hend
  case inJoin x => exact hend.symm
  all_goals
    rw [Option.some.injEq, Prod.mk.injEq] at hend
    exact hend

end

/-! ## The current thread -/

/-- A context in which a thread does nothing but wait for the processor. -/
def Context.Idle (c : Context) : Prop := c = .start ∨ c = .inYield

/-- What the scheduler keeps whatever the threads do: the current thread is in the
table, it is the only one in its own code and it is `RUNNING`, and a thread that
just waits for the processor is `READY`. -/
structure SchedInv (M : Machine) (s : Sys) : Prop where
  cur_lt : s.threadCurrentIdx < M.threadMax
  cur : s.threadTab s.threadCurrentIdx = some s.threadCurrent
  user : ∀ t, s.Existing M t → (s.thread t).context = .user →
    t = s.threadCurrent ∧ (s.thread t).state = .running
  idle : ∀ t, s.Existing M t → (s.thread t).context.Idle → (s.thread t).state = .ready

section
variable {M : Machine} {s s' : Sys} {th t : Nat}

theorem SchedInv.existing_cur (h : SchedInv M s) : s.Existing M s.threadCurrent :=
  ⟨_, h.cur_lt, h.cur⟩

/-- Threads go to sleep, wake up or yield; none gets into its own code. -/
theorem SchedInv.change (h : SchedInv M s) (htab : s'.threadTab = s.threadTab)
    (hidx : s'.threadCurrentIdx = s.threadCurrentIdx) (hcur : s'.threadCurrent = s.threadCurrent)
    (hthread : ∀ t, s.Existing M t → s'.thread t = s.thread t ∨
      (s'.thread t).context ≠ .user ∧
        ((s'.thread t).context.Idle → (s'.thread t).state = .ready)) :
    SchedInv M s' := by
  have hex : ∀ t, s'.Existing M t → s.Existing M t := by
    intro t ht
    rwa [Sys.Existing, htab] at ht
  refine ⟨by rw [hidx]; exact h.cur_lt, by rw [htab, hidx, hcur]; exact h.cur, ?_, ?_⟩
  · intro t ht hctx
    rcases hthread t (hex t ht) with he | ⟨hne, -⟩
    · rw [he] at hctx ⊢
      rw [hcur]
      exact h.user t (hex t ht) hctx
    · exact absurd hctx hne
  · intro t ht hctx
    rcases hthread t (hex t ht) with he | ⟨-, hidle⟩
    · rw [he] at hctx ⊢
      exact h.idle t (hex t ht) hctx
    · exact hidle hctx

/-- A place of the table other than that of the current thread changes, and the threads
of the table stay or are at rest. -/
theorem SchedInv.retable {i : Nat} {v : Option Nat} (h : SchedInv M s)
    (htab : s'.threadTab = Function.update s.threadTab i v)
    (hi : s.threadTab i ≠ some s.threadCurrent)
    (hidx : s'.threadCurrentIdx = s.threadCurrentIdx) (hcur : s'.threadCurrent = s.threadCurrent)
    (hthread : ∀ t, s'.Existing M t → (s.Existing M t ∧ s'.thread t = s.thread t) ∨
      ((s'.thread t).context ≠ .user ∧
        ((s'.thread t).context.Idle → (s'.thread t).state = .ready))) : SchedInv M s' := by
  constructor
  · rw [hidx]
    exact h.cur_lt
  · rw [hidx, hcur, htab, Function.update_of_ne, h.cur]
    rintro rfl
    exact hi h.cur
  · intro t ht hctx
    rcases hthread t ht with ⟨hold, he⟩ | ⟨hne, -⟩
    · rw [he] at hctx ⊢
      rw [hcur]
      exact h.user t hold hctx
    · exact absurd hctx hne
  · intro t ht hctx
    rcases hthread t ht with ⟨hold, he⟩ | ⟨-, hidle⟩
    · rw [he] at hctx ⊢
      exact h.idle t hold hctx
    · exact hidle hctx

/-- The current thread has gone to sleep in a call. -/
structure AsleepIn (ctx : Context) (s s' : Sys) : Prop where
  threadTab : s'.threadTab = s.threadTab
  threadCurrentIdx : s'.threadCurrentIdx = s.threadCurrentIdx
  threadCurrent : s'.threadCurrent = s.threadCurrent
  self : s'.thread s.threadCurrent =
    { s.thread s.threadCurrent with state := .wait, context := ctx }
  other : ∀ t, t ≠ s.threadCurrent → s'.thread t = s.thread t

/-- `thread_wait` of a running thread, after list operations. -/
theorem threadWait_of_touches {s₁ : Sys} {X : List Cell} {ctx : Context}
    (h : Touches wcells X s s₁) (hrun : (s.thread s.threadCurrent).state = .running) :
    threadWait ctx s₁ = { s with
      next := s₁.next
      prev := s₁.prev
      thread := Function.update s.thread s.threadCurrent
        { s.thread s.threadCurrent with state := .wait, context := ctx } } := by
  rw [Sys.of_touches h]
  simp only [threadWait, hrun, if_true, Sys.setState, Sys.setContext, Sys.modThread,
    Function.update_self, Function.update_idem]

theorem asleepIn_threadWait {s₁ : Sys} {X : List Cell} {ctx : Context}
    (h : Touches wcells X s s₁) (hrun : (s.thread s.threadCurrent).state = .running) :
    AsleepIn ctx s (threadWait ctx s₁) := by
  rw [threadWait_of_touches h hrun]
  exact ⟨rfl, rfl, rfl, Function.update_self .., fun t ht => Function.update_of_ne ht ..⟩

/-- A barrier may have been written before. -/
theorem AsleepIn.of_barrier {s₀ : Sys} {ctx : Context} (h : AsleepIn ctx s₀ s')
    (hs₀ : s₀ = { s with barrier := s₀.barrier }) : AsleepIn ctx s s' := by
  rw [hs₀] at h
  exact ⟨h.threadTab, h.threadCurrentIdx, h.threadCurrent, h.self, h.other⟩

/-- A thread that sleeps in a call is neither in its own code nor at rest. -/
theorem AsleepIn.schedInv {ctx : Context} (h : AsleepIn ctx s s') (hinv : SchedInv M s)
    (huser : ctx ≠ .user) (hidle : ¬ ctx.Idle) : SchedInv M s' := by
  refine hinv.change h.threadTab h.threadCurrentIdx h.threadCurrent fun t _ => ?_
  by_cases ht : t = s.threadCurrent
  · rw [ht, h.self]
    exact .inr ⟨huser, fun hctx => absurd hctx hidle⟩
  · exact .inl (h.other t ht)

/-- `thread_yield` changes the structure of the current thread only. -/
theorem threadYield_self (s : Sys) : (threadYield s).thread s.threadCurrent =
    { s.thread s.threadCurrent with state := .ready, context := .inYield } := by
  simp [threadYield]

theorem threadYield_of_ne (ht : t ≠ s.threadCurrent) :
    (threadYield s).thread t = s.thread t := by
  simp [threadYield, ht]

theorem SchedInv.yield (h : SchedInv M s) : SchedInv M (threadYield s) := by
  refine h.change rfl rfl rfl fun t _ => ?_
  by_cases ht : t = s.threadCurrent
  · refine .inr ?_
    rw [ht, threadYield_self]
    simp
  · exact .inl (threadYield_of_ne ht)

/-- Once the current thread has left its code, no thread is in its own. -/
theorem SchedInv.no_user (h : SchedInv M s)
    (hc : (s.thread s.threadCurrent).context ≠ .user) (ht : s.Existing M t) :
    (s.thread t).context ≠ .user :=
  fun he => hc ((h.user t ht he).1 ▸ he)

theorem SchedInv.elect (h : SchedInv M s) (hc : (s.thread s.threadCurrent).context ≠ .user)
    (hth : th < M.threadMax) (htab : s.threadTab th = some t) : SchedInv M (s.elect th t) := by
  refine ⟨hth, htab, ?_, ?_⟩
  · intro u hu hctx
    by_cases hut : u = t
    · subst hut
      exact ⟨rfl, by rw [Sys.elect_self]⟩
    · rw [Sys.elect_of_ne hut] at hctx
      exact absurd hctx (h.no_user hc hu)
  · intro u hu hctx
    by_cases hut : u = t
    · rw [hut, Sys.elect_self] at hctx
      simp [Context.Idle] at hctx
    · rw [Sys.elect_of_ne hut] at hctx ⊢
      exact h.idle u hu hctx

end

/-! ## Runs -/

/-- A start: one thread runs in its own code and the others are ready to go on in
theirs. -/
structure ThreadsReady (M : Machine) (s : Sys) : Prop where
  cur_lt : s.threadCurrentIdx < M.threadMax
  cur : s.threadTab s.threadCurrentIdx = some s.threadCurrent
  running : (s.thread s.threadCurrent).state = .running ∧
    (s.thread s.threadCurrent).context = .user
  others : ∀ t, s.Existing M t → t ≠ s.threadCurrent → (s.thread t).state = .ready ∧
    (s.thread t).context.Idle

theorem ThreadsReady.context {M : Machine} {s : Sys} (h : ThreadsReady M s) {t : Nat}
    (ht : s.Existing M t) : (s.thread t).context = .user ∨ (s.thread t).context.Idle := by
  by_cases htc : t = s.threadCurrent
  · exact .inl (htc ▸ h.running.2)
  · exact .inr (h.others t ht htc).2

theorem ThreadsReady.schedInv {M : Machine} {s : Sys} (h : ThreadsReady M s) : SchedInv M s := by
  refine ⟨h.cur_lt, h.cur, ?_, ?_⟩
  · intro t ht hu
    by_cases htc : t = s.threadCurrent
    · exact ⟨htc, htc ▸ h.running.1⟩
    · have hc := (h.others t ht htc).2
      rw [hu] at hc
      simp [Context.Idle] at hc
  · intro t ht hc
    by_cases htc : t = s.threadCurrent
    · rw [htc, h.running.2] at hc
      simp [Context.Idle] at hc
    · exact (h.others t ht htc).1

/-- The states and the events, newest first, of the runs from `s₀` whose calls
are allowed by `ok` where they are made. -/
inductive Run (M : Machine) (ok : Sys → List Event → Call → Prop) (s₀ : Sys) :
    Sys → List Event → Prop where
  | init : Run M ok s₀ s₀ []
  | step {s s' : Sys} {tr es : List Event} {c : Option Call} : Run M ok s₀ s tr →
      (∀ call ∈ c, ok s tr call) → Step M s c es s' → Run M ok s₀ s' (es ++ tr)

/-- The state and the events after some calls and switches, if they are allowed and
none of them panics. -/
def runCalls (M : Machine) (ok : Sys → List Event → Call → Bool) :
    List (Option Call) → Sys → List Event → Option (Sys × List Event)
  | [], s, tr => some (s, tr)
  | none :: cs, s, tr =>
    if (s.thread s.threadCurrent).context = .user then none
    else do
      let s₁ ← schedSwitch M s
      let (s', es) ← resume M s₁
      runCalls M ok cs s' (es ++ tr)
  | some c :: cs, s, tr =>
    if (s.thread s.threadCurrent).context = .user ∧ ok s tr c then do
      let (_, s', es) ← doCall M c s
      runCalls M ok cs s' (es ++ tr)
    else none

/-- What `runCalls` computes is a run. -/
theorem runCalls_run {M : Machine} {ok : Sys → List Event → Call → Bool} {s₀ s' : Sys}
    {tr' : List Event} (cs : List (Option Call)) {s : Sys} {tr : List Event}
    (hrun : Run M (fun s tr c => ok s tr c = true) s₀ s tr)
    (h : runCalls M ok cs s tr = some (s', tr')) :
    Run M (fun s tr c => ok s tr c = true) s₀ s' tr' := by
  induction cs generalizing s tr with
  | nil =>
    simp only [runCalls, Option.some.injEq, Prod.mk.injEq] at h
    obtain ⟨rfl, rfl⟩ := h
    exact hrun
  | cons c cs ih =>
    cases c with
    | none =>
      unfold runCalls at h
      split at h
      · exact absurd h (by simp)
      · rename_i hctx
        simp only [Option.bind_eq_bind, Option.bind_eq_some_iff] at h
        obtain ⟨s₁, hsw, ⟨s₂, es⟩, hres, h⟩ := h
        exact ih (hrun.step (by simp) (.switch hctx hsw hres)) h
    | some c =>
      unfold runCalls at h
      split at h
      · rename_i hctx
        simp only [Option.bind_eq_bind, Option.bind_eq_some_iff] at h
        obtain ⟨⟨r, s₂, es⟩, hcall, h⟩ := h
        exact ih (hrun.step (by simpa using hctx.2) (.call hctx.1 hcall)) h
      · exact absurd h (by simp)

/-! ## A small machine -/

/-- A user memory of a few stacks. -/
def smallUser : UserLayout where
  freeUserStack := 0
  ustackBeg := 0x80000
  userLo := 0x10000
  lo_pos := by decide
  region_lt := by decide
  root_outside := by decide
  beg_lt := by decide
  root_lt := by decide

/-- A machine with at most four threads. -/
def smallMachine : Machine where
  threadMax := 4
  kernel := onePage
  user := smallUser
  max_pos := by decide

/-- Two threads, the first one running. -/
def twoThreads : Sys where
  thread t :=
    { ustackB := 0
      state := if t = 4096 then .running else .ready
      retval := 0
      join := none
      tid := if t = 4096 then 0 else 1
      context := if t = 4096 then .user else .start }
  next := id
  prev := id
  threadTab i := if i = 0 then some 4096 else if i = 1 then some 8192 else none
  threadCurrentIdx := 0
  threadCurrent := 4096
  mutex _ := { busy := 0, owner := none }
  barrier _ := { magic := magicBarrier, expected := 2, waiting := 0 }
  kmem := usedMem
  umem := { mem := fun _ => 0, ustackEnd := 0, uheapEnd := 0 }

theorem threadsReady_twoThreads : ThreadsReady smallMachine twoThreads := by
  refine ⟨by decide, rfl, by decide, ?_⟩
  rintro t ⟨i, -, hi⟩ hne
  simp only [twoThreads] at hi hne ⊢
  simp [hne, Context.Idle]

end Ko6.Kernel
