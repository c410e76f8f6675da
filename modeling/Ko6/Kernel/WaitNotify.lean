import Ko6.Kernel.Kthread

set_option autoImplicit false

/-!
# Kernel: `thread_wait` against `thread_notify` on two processors

On one processor the critical sections of `kernel/kthread.c` run without interruption.
Here they are taken apart: each read, write, `spin_lock` and `spin_unlock` of a thread
structure is one step, and two processors make their steps in any order.  The one
executes `thread_wait`, the other `thread_notify` for the thread that waits.

Both functions lock `ThreadCurrent->lock`, which is another lock on each processor.
The read and the write of `thread_wait` are therefore not kept together: a
`thread_notify` that comes in between is lost.
-/

namespace Ko6.Kernel

/-! ## Processors -/

/-- The fields `state` and `lock` of the thread structures. -/
structure Threads where
  state : Nat → ThState
  lock : Nat → Bool

namespace Threads

def setState (m : Threads) (t : Nat) (st : ThState) : Threads :=
  { m with state := Function.update m.state t st }

def setLock (m : Threads) (t : Nat) (b : Bool) : Threads :=
  { m with lock := Function.update m.lock t b }

end Threads

/-- The next step of a processor in one of the two functions.  `waitWrite` has the state
that has been read; `ret` is the end of the critical section. -/
inductive Pc where
  | waitLock
  | waitRead
  | waitWrite (state : ThState)
  | waitUnlock
  | notifyLock (thread : Nat)
  | notifyWrite (thread : Nat)
  | notifyUnlock
  | ret
  deriving DecidableEq

/-- A processor has its own `ThreadCurrent`. -/
structure Cpu where
  threadCurrent : Nat
  pc : Pc

/-- One step of a processor.  While the lock is taken `spin_lock` tries again; after the
critical section nothing is done. -/
def cpuStep (c : Cpu) (m : Threads) : Cpu × Threads :=
  let t := c.threadCurrent
  match c.pc with
  | .waitLock => if m.lock t then (c, m) else ({ c with pc := .waitRead }, m.setLock t true)
  | .waitRead => ({ c with pc := .waitWrite (m.state t) }, m)
  | .waitWrite state =>
    ({ c with pc := .waitUnlock }, if state = .running then m.setState t .wait else m)
  | .waitUnlock => ({ c with pc := .ret }, m.setLock t false)
  | .notifyLock thread =>
    if m.lock t then (c, m) else ({ c with pc := .notifyWrite thread }, m.setLock t true)
  | .notifyWrite thread => ({ c with pc := .notifyUnlock }, m.setState thread .ready)
  | .notifyUnlock => ({ c with pc := .ret }, m.setLock t false)
  | .ret => (c, m)

/-! ## Interleavings -/

/-- The two processors: `t₀` waits on the one, the other notifies. -/
inductive Proc where
  | waiter
  | notifier
  deriving DecidableEq

/-- The state of the machine. -/
structure Two where
  waiter : Cpu
  notifier : Cpu
  threads : Threads

/-- A step of one of the processors. -/
def twoStep (s : Two) : Proc → Two
  | .waiter =>
    let (c, m) := cpuStep s.waiter s.threads
    { s with waiter := c, threads := m }
  | .notifier =>
    let (c, m) := cpuStep s.notifier s.threads
    { s with notifier := c, threads := m }

/-- The steps of the processors in the order of the list. -/
def interleave (order : List Proc) (s : Two) : Two := order.foldl twoStep s

/-- Thread `t₀` calls `thread_wait`, thread `t₁` calls `thread_notify (t₀)`. -/
def waitNotify (t₀ t₁ : Nat) (m : Threads) : Two where
  waiter := { threadCurrent := t₀, pc := .waitLock }
  notifier := { threadCurrent := t₁, pc := .notifyLock t₀ }
  threads := m

/-- Both critical sections are over. -/
def Two.Over (s : Two) : Prop := s.waiter.pc = .ret ∧ s.notifier.pc = .ret

/-- The next step writes `READY` between the read and the write of `thread_wait`. -/
def Two.Between (s : Two) (p : Proc) : Prop :=
  p = .notifier ∧ (∃ t, s.notifier.pc = .notifyWrite t) ∧ ∃ state, s.waiter.pc = .waitWrite state

/-- Such a step is made. -/
def Overtakes : List Proc → Two → Prop
  | [], _ => False
  | p :: order, s => s.Between p ∨ Overtakes order (twoStep s p)

/-! ## The invariant -/

/-- `thread_notify` has written the state. -/
def Pc.notified : Pc → Bool
  | .notifyUnlock | .ret => true
  | _ => false

/-- The state `st` of the waiting thread, by the step that it has reached in
`thread_wait`; `lost` says that the notification came between the read and the write. -/
def StateAt (notified : Bool) (lost : Prop) (st : ThState) : Pc → Prop
  | .waitLock | .waitRead => ¬ lost ∧ st = if notified then .ready else .running
  | .waitWrite read => ¬ lost ∧ read = st ∧ (st = if notified then .ready else .running) ∨
      lost ∧ notified = true ∧ read = .running
  | .waitUnlock | .ret => ¬ lost ∧ (st = if notified then .ready else .wait) ∨
      lost ∧ notified = true ∧ st = .wait
  | _ => False

/-- What holds between two steps. -/
structure WaitNotifyInv (t₀ : Nat) (s : Two) (lost : Prop) : Prop where
  current : s.waiter.threadCurrent = t₀
  notifier : s.notifier.pc = .notifyLock t₀ ∨ s.notifier.pc = .notifyWrite t₀ ∨
    s.notifier.pc.notified = true
  state : StateAt s.notifier.pc.notified lost (s.threads.state t₀) s.waiter.pc

section
variable {t₀ t₁ : Nat} {s : Two} {lost : Prop}

theorem waitNotifyInv_start {m : Threads} (hrun : m.state t₀ = .running) :
    WaitNotifyInv t₀ (waitNotify t₀ t₁ m) False :=
  ⟨rfl, .inl rfl, not_false, hrun⟩

/-- A step of the processor that waits. -/
theorem WaitNotifyInv.waiterStep (h : WaitNotifyInv t₀ s lost) :
    WaitNotifyInv t₀ (twoStep s .waiter) lost := by
  obtain ⟨⟨c, pc⟩, n, m⟩ := s
  obtain ⟨rfl, hn, hst⟩ := h
  dsimp only at hn hst
  cases pc with
  | waitLock =>
    cases hlock : m.lock c with
    | true =>
      simp only [twoStep, cpuStep, hlock, if_true]
      exact ⟨rfl, hn, hst⟩
    | false =>
      simp only [twoStep, cpuStep, hlock, Bool.false_eq_true, if_false]
      exact ⟨rfl, hn, hst⟩
  | waitRead => exact ⟨rfl, hn, .inl ⟨hst.1, rfl, hst.2⟩⟩
  | waitWrite read =>
    refine ⟨rfl, hn, ?_⟩
    rcases hst with ⟨hlost, rfl, hst⟩ | ⟨hlost, hnot, rfl⟩
    · refine .inl ⟨hlost, ?_⟩
      cases hnot : n.pc.notified with
      | true =>
        rw [hnot, if_pos rfl] at hst
        simp [twoStep, cpuStep, hst, hnot]
      | false =>
        rw [hnot, if_neg Bool.false_ne_true] at hst
        simp [twoStep, cpuStep, hst, hnot, Threads.setState]
    · exact .inr ⟨hlost, hnot, by simp [twoStep, cpuStep, Threads.setState]⟩
  | waitUnlock => exact ⟨rfl, hn, hst⟩
  | ret => exact ⟨rfl, hn, hst⟩
  | notifyLock | notifyWrite | notifyUnlock => exact hst.elim

/-- The state that `thread_notify` writes. -/
theorem StateAt.notify {st : ThState} {pc : Pc} (h : StateAt false lost st pc) :
    StateAt true (lost ∨ ∃ read, pc = .waitWrite read) .ready pc := by
  cases pc with
  | waitLock | waitRead => exact ⟨by simpa using h.1, rfl⟩
  | waitWrite read =>
    rcases h with ⟨hlost, rfl, hst⟩ | ⟨-, hnot, -⟩
    · exact .inr ⟨.inr ⟨_, rfl⟩, rfl, by simpa using hst⟩
    · exact absurd hnot (by simp)
  | waitUnlock | ret =>
    rcases h with ⟨hlost, -⟩ | ⟨-, hnot, -⟩
    · exact .inl ⟨by simpa using hlost, rfl⟩
    · exact absurd hnot (by simp)
  | notifyLock | notifyWrite | notifyUnlock => exact h

/-- A step of the processor that notifies. -/
theorem WaitNotifyInv.notifierStep (h : WaitNotifyInv t₀ s lost) :
    WaitNotifyInv t₀ (twoStep s .notifier) (lost ∨ s.Between .notifier) := by
  obtain ⟨w, ⟨c, pc⟩, m⟩ := s
  obtain ⟨hcur, hn, hst⟩ := h
  dsimp only at hcur hn hst
  -- where `READY` is not written, nothing is lost
  have hnone : (∀ t, pc ≠ .notifyWrite t) →
      (lost ∨ (Two.mk w ⟨c, pc⟩ m).Between .notifier ↔ lost) := by
    intro hpc
    refine or_iff_left ?_
    rintro ⟨-, ⟨t, ht⟩, -⟩
    exact hpc t ht
  rcases hn with rfl | rfl | hnot
  · rw [hnone (by simp)]
    cases hlock : m.lock c with
    | true =>
      simp only [twoStep, cpuStep, hlock, if_true]
      exact ⟨hcur, .inl rfl, hst⟩
    | false =>
      simp only [twoStep, cpuStep, hlock, Bool.false_eq_true, if_false]
      exact ⟨hcur, .inr (.inl rfl), hst⟩
  · have hlost : (lost ∨ (Two.mk w ⟨c, .notifyWrite t₀⟩ m).Between .notifier) =
        (lost ∨ ∃ read, w.pc = .waitWrite read) := by
      simp [Two.Between]
    rw [hlost]
    refine ⟨hcur, .inr (.inr rfl), ?_⟩
    simpa [twoStep, cpuStep, Threads.setState, Pc.notified] using hst.notify
  · cases pc with
    | notifyUnlock | ret =>
      rw [hnone (by simp)]
      exact ⟨hcur, .inr (.inr rfl), hst⟩
    | _ => exact absurd hnot (by simp [Pc.notified])

/-- Whatever the order of the steps, what is lost is what overtakes. -/
theorem WaitNotifyInv.run (order : List Proc) (h : WaitNotifyInv t₀ s lost) :
    WaitNotifyInv t₀ (interleave order s) (lost ∨ Overtakes order s) := by
  induction order generalizing s lost with
  | nil =>
    rw [show (lost ∨ Overtakes [] s) = lost from or_false lost]
    exact h
  | cons p order ih =>
    have hstep : WaitNotifyInv t₀ (twoStep s p) (lost ∨ s.Between p) := by
      cases p with
      | waiter =>
        have hnever : ¬ s.Between .waiter := fun hb => absurd hb.1 (by simp)
        rw [or_iff_left hnever]
        exact h.waiterStep
      | notifier => exact h.notifierStep
    have hrun := ih hstep
    rwa [or_assoc] at hrun

/-! ## The end of both critical sections -/

/-- In every interleaving of `thread_wait` of the `RUNNING` thread `t₀` with
`thread_notify (t₀)` that has ended, `t₀` is `READY` if the notification did not come
between the read and the write of `thread_wait`, and `WAIT` if it did. -/
theorem wait_notify_iff {m : Threads} (order : List Proc) (hrun : m.state t₀ = .running)
    (hover : (interleave order (waitNotify t₀ t₁ m)).Over) :
    ((interleave order (waitNotify t₀ t₁ m)).threads.state t₀ = .ready ↔
      ¬ Overtakes order (waitNotify t₀ t₁ m)) ∧
    ((interleave order (waitNotify t₀ t₁ m)).threads.state t₀ = .wait ↔
      Overtakes order (waitNotify t₀ t₁ m)) := by
  have hinv : WaitNotifyInv t₀ (interleave order (waitNotify t₀ t₁ m))
      (False ∨ Overtakes order (waitNotify t₀ t₁ m)) :=
    (waitNotifyInv_start hrun).run order
  have hst := hinv.state
  rw [hover.1, hover.2, false_or] at hst
  rcases hst with ⟨hnot, hst⟩ | ⟨hlost, -, hst⟩
  · rw [show (if Pc.ret.notified = true then ThState.ready else .wait) = .ready from rfl] at hst
    simp [hst, hnot]
  · simp [hst, hlost]

end

/-- Two threads that run, with free locks. -/
def twoRunning : Threads where
  state _ := .running
  lock _ := false

/-- Both processors enter their critical sections, each by its own lock; the one has read
`RUNNING` when the other writes `READY`, and then writes `WAIT`. -/
def lostOrder : List Proc :=
  [.waiter, .waiter, .notifier, .notifier, .notifier, .waiter, .waiter]

/-- The thread sleeps after the notification. -/
theorem wait_notify_lost :
    twoRunning.state 4096 = .running ∧ (interleave lostOrder (waitNotify 4096 8192 twoRunning)).Over ∧
      (interleave lostOrder (waitNotify 4096 8192 twoRunning)).threads.state 4096 = .wait := by
  refine ⟨rfl, ⟨?_, ?_⟩, ?_⟩ <;> decide

/-- The thread is ready when it waits first. -/
theorem wait_notify_iff_waiterFirst :
    (interleave (List.replicate 4 .waiter ++ List.replicate 3 .notifier)
      (waitNotify 4096 8192 twoRunning)).threads.state 4096 = .ready := by
  refine (wait_notify_iff _ rfl ⟨by decide, by decide⟩).1.mpr ?_
  simp [Overtakes, Two.Between, waitNotify, twoStep, cpuStep, twoRunning, Threads.setLock,
    List.replicate]

end Ko6.Kernel
