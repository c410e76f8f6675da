import Ko6.Kernel.ThreadLife
import Ko6.Kernel.BarrierRuns
import Ko6.Kernel.SchedRuns

set_option autoImplicit false

/-!
# Kernel: timer interrupts

The timer interrupt calls `tick_event`, and this calls `thread_yield` (and `kcmd`, which
is an empty macro).  Interrupts are masked in the system calls and in the handlers.
They are enabled in the own code of a thread, and in the second loop of `sched_elect`,
where the processor waits for a `READY` thread; there the current thread has given up
the processor and is `WAIT` or `ZOMBIE`.

The handler of a tick in this loop may itself switch to another thread.  The interrupted
thread goes on in its handler when it is elected, and then in its loop.
-/

namespace Ko6.Kernel

open Ko6.Lib Ko6.Common

/-! ## The processor -/

/-- The kernel and the place where the processor is in it. -/
structure Core where
  sys : Sys
  /-- In the second loop of `sched_elect`, its variable `th`. -/
  waiting : Option Nat
  /-- For the threads that have given up the processor in the handler of a tick that came
  in their second loop, the variable `th` of this loop. -/
  ticked : Nat → Option Nat

/-- What happens next: a call of the running thread, a timer interrupt, a call of
`sched_switch` with the first loop of `sched_elect`, or one turn of the second loop. -/
inductive Act where
  | call (c : Call)
  | tick
  | elect
  | look
  deriving DecidableEq, Repr

/-- `sched_switch` after `sched_elect` has returned `thNext`, up to the point where the
elected thread goes on. -/
def switchTo (thNext : Nat) (s : Sys) : Sys :=
  let s :=
    if thNext ≠ s.threadCurrentIdx then
      { s with
        threadCurrentIdx := thNext
        threadCurrent := (s.threadTab thNext).getD 0 }
    else s
  s.setState s.threadCurrent .running

theorem schedSwitch_eq {M : Machine} {s : Sys} :
    schedSwitch M s = (schedElect M s).map fun th => switchTo th s := by
  unfold schedSwitch
  cases schedElect M s <;> rfl

section
variable (M : Machine)

/-- The rest of `sched_switch`, and what the elected thread does then: the end of its
call, or of the handler in which it has given up the processor. -/
def goOn (thNext : Nat) (cpu : Core) : Option (Core × List Event) :=
  let s := switchTo thNext cpu.sys
  let handler := if thNext ≠ cpu.sys.threadCurrentIdx then cpu.ticked s.threadCurrent else none
  match handler with
  | some th =>
    some ({ sys := s, waiting := some th,
            ticked := Function.update cpu.ticked s.threadCurrent none }, [])
  | none => (resume M s).map fun (s, es) => ({ cpu with sys := s, waiting := none }, es)

/-- The place of the table after `th`. -/
def nextPlace (th : Nat) : Nat := (th + 1) % M.threadMax

/-- One step of the processor. -/
def coreStep : Act → Core → Option (Core × List Event)
  | .call c, cpu =>
    if cpu.waiting = none ∧ (cpu.sys.thread cpu.sys.threadCurrent).context = .user then
      (doCall M c cpu.sys).map fun (_, s, es) => ({ cpu with sys := s }, es)
    else none
  | .tick, cpu =>
    match cpu.waiting with
    | none =>
      -- in the code of the thread: its `sched_switch` is the next step
      if (cpu.sys.thread cpu.sys.threadCurrent).context = .user then
        some ({ cpu with sys := threadYield cpu.sys }, [])
      else none
    | some th =>
      let c := cpu.sys.threadCurrent
      let s := cpu.sys.setState c .ready
      (schedElect M s).bind fun thNext =>
        if thNext = s.threadCurrentIdx then
          -- the handler returns to the loop
          some ({ cpu with sys := switchTo thNext s }, [])
        else
          goOn M thNext
            { sys := s, waiting := none, ticked := Function.update cpu.ticked c (some th) }
  | .elect, cpu =>
    if cpu.waiting = none ∧ (cpu.sys.thread cpu.sys.threadCurrent).context ≠ .user then
      match schedElect M cpu.sys with
      | some thNext => goOn M thNext cpu
      | none => some ({ cpu with waiting := some (nextPlace M cpu.sys.threadCurrentIdx) }, [])
    else none
  | .look, cpu =>
    match cpu.waiting with
    | none => none
    | some th =>
      if readyAt cpu.sys th then goOn M th { cpu with waiting := none }
      else some ({ cpu with waiting := some (nextPlace M th) }, [])

end

/-! ## What sleeping and dead threads may do -/

/-- The call applies `thread_notify` to the thread. -/
def Notifies (s : Sys) (t : Nat) : Call → Prop
  | .unlock (some m) => (s.mutex m).busy ≠ 0 ∧ (s.mutex m).owner = some s.threadCurrent ∧
      ∃ xs, Rep wcells s (.mutex m) (.thread t :: xs)
  | .barrierWait (some b) => (s.barrier b).magic = magicBarrier ∧
      (s.barrier b).waiting + 1 = (s.barrier b).expected ∧
      ∃ xs, Rep wcells s (.barrier b) xs ∧ .thread t ∈ xs
  | _ => False

/-- The call is the `thread_exit` of the thread that the thread joins. -/
def ExitsFor (s : Sys) (t : Nat) : Call → Prop
  | .exit _ => (s.thread t).context = .inJoin s.threadCurrent
  | _ => False

/-- In this step a thread leaves `WAIT` only when it is notified or when the thread that
it joins exits, and a thread leaves `ZOMBIE` only to be `DEAD` at the end of a join. -/
structure Lawful (M : Machine) (s : Sys) (a : Act) (es : List Event) (s' : Sys) : Prop where
  wait : ∀ t, s.Existing M t → (s.thread t).state = .wait → (s'.thread t).state ≠ .wait →
    (s'.thread t).state = .ready ∧ ∃ c, a = .call c ∧ (Notifies s t c ∨ ExitsFor s t c)
  zombie : ∀ t, s.Existing M t → (s.thread t).state = .zombie → (s'.thread t).state ≠ .zombie →
    (s'.thread t).state = .dead ∧ ∃ c v, .joined c t v ∈ es

/-- A tick in the second loop of `sched_elect`, while the current thread is `WAIT` or
`ZOMBIE`. -/
def WakesSleeper (cpu : Core) (a : Act) : Prop :=
  a = .tick ∧ cpu.waiting.isSome ∧ ((cpu.sys.thread cpu.sys.threadCurrent).state = .wait ∨
    (cpu.sys.thread cpu.sys.threadCurrent).state = .zombie)

/-- Where `thread_join` comes to its end, at once or after its wait, the thread that it
destroys is in the table and has exited. -/
def JoinsExited (M : Machine) (s : Sys) : Act → Prop
  | .call (.join (some x)) => (s.thread x).state = .zombie → s.Existing M x
  | .elect | .look => ∀ t x, s.Existing M t → (s.thread t).state = .ready →
      (s.thread t).context = .inJoin x → s.Existing M x ∧ (s.thread x).state = .zombie
  | _ => True

section
variable {M : Machine} {s s' : Sys} {a : Act} {es : List Event}

/-- A step that leaves the sleeping and the dead threads alone. -/
theorem lawful_of_keep (h : ∀ t, s.Existing M t → (s.thread t).state = .wait ∨
    (s.thread t).state = .zombie → (s'.thread t).state = (s.thread t).state) :
    Lawful M s a es s' := by
  constructor
  · intro t ht hw hw'
    exact absurd ((h t ht (.inl hw)).trans hw) hw'
  · intro t ht hz hz'
    exact absurd ((h t ht (.inr hz)).trans hz) hz'

/-- No step may make a sleeping or dead thread `RUNNING`. -/
theorem not_lawful_of_running {t : Nat} (hex : s.Existing M t)
    (hs : (s.thread t).state = .wait ∨ (s.thread t).state = .zombie)
    (hrun : (s'.thread t).state = .running) : ¬ Lawful M s a es s' := by
  intro hlaw
  rcases hs with hs | hs
  · have hready := (hlaw.wait t hex hs (by rw [hrun]; simp)).1
    rw [hrun] at hready
    exact absurd hready (by simp)
  · have hdead := (hlaw.zombie t hex hs (by rw [hrun]; simp)).1
    rw [hrun] at hdead
    exact absurd hdead (by simp)

end

end Ko6.Kernel
