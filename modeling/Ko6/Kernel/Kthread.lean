import Ko6.Kernel.BlockIo
import Ko6.Kernel.Kmemuser

set_option autoImplicit false

/-!
# Kernel: threads, scheduler, mutexes and barriers

The functions of `kernel/kthread.c` and `kernel/ksynchro.c` on one processor.  A
thread is named by the address of its page, which holds its `thread_s`; the
fields are kept here by that address.  A system call runs without interruption
until it returns or calls `sched_switch`; where it will go on after the switch is
the saved context of the thread.  The spin locks protect the same sections
against other processors and do not appear.

A step of the machine is a call of the running thread, or the switch that follows
it and the end of the call of the thread that is resumed.  Steps leave events,
from which the statements about whole runs are read.
-/

namespace Ko6.Kernel

open Ko6.Lib Ko6.Common

/-! ## Data -/

/-- `TH_STATE_RUNNING` and so on. -/
inductive ThState where
  | running | ready | dead | wait | zombie
  deriving DecidableEq, Repr

/-- The return values of the calls. -/
inductive Errno where
  | success | einval | edeadlk | eperm | esrch | eagain
  deriving DecidableEq, Repr

/-- The saved context of a thread: in the user's code, before its first
instruction, or in the `sched_switch` of a call. -/
inductive Context where
  | user
  | start
  | inYield
  | inExit
  | inJoin (expected : Nat)
  | inLock (m : Nat)
  | inBarrier (b : Nat)
  deriving DecidableEq, Repr

/-- `struct thread_s`. -/
structure Thread where
  ustackB : Nat
  state : ThState
  retval : Nat
  join : Option Nat
  tid : Nat
  context : Context

/-- `struct thread_mutex_s`. -/
structure Mutex where
  busy : Nat
  owner : Option Nat

/-- `struct thread_barrier_s`. -/
structure Barrier where
  magic : BitVec 32
  expected : Nat
  waiting : Nat

/-- The `list_t` of the wait lists: `thread->wait`, `mutex->wait` and
`barrier->wait`. -/
inductive Cell where
  | thread (t : Nat)
  | mutex (m : Nat)
  | barrier (b : Nat)
  deriving DecidableEq

/-- `THREAD_MAX` and the memory of the machine. -/
structure Machine where
  threadMax : Nat
  kernel : Layout
  user : UserLayout
  max_pos : 0 < threadMax

/-- The state of the kernel. -/
structure Sys where
  thread : Nat → Thread
  next : Cell → Cell
  prev : Cell → Cell
  threadTab : Nat → Option Nat
  threadCurrentIdx : Nat
  threadCurrent : Nat
  mutex : Nat → Mutex
  barrier : Nat → Barrier
  kmem : Kmem
  umem : Umem

/-- What a step tells about itself. -/
inductive Event where
  | created (t tid top : Nat)
  | exited (t retval : Nat)
  | joinCalled (t expected : Nat)
  | joined (t expected retval : Nat)
  | stackFreed (t top : Nat)
  | slotFreed (t tid : Nat)
  | pageFreed (t : Nat)
  | lockBlocked (t m : Nat)
  | lockTaken (t m : Nat)
  | lockHanded (t m : Nat)
  | lockReleased (t m : Nat)
  | barrierArrived (t b : Nat)
  | barrierPassed (t b : Nat)
  deriving DecidableEq, Repr

namespace Sys

def modThread (s : Sys) (t : Nat) (f : Thread → Thread) : Sys :=
  { s with thread := Function.update s.thread t (f (s.thread t)) }

def modMutex (s : Sys) (m : Nat) (f : Mutex → Mutex) : Sys :=
  { s with mutex := Function.update s.mutex m (f (s.mutex m)) }

def modBarrier (s : Sys) (b : Nat) (f : Barrier → Barrier) : Sys :=
  { s with barrier := Function.update s.barrier b (f (s.barrier b)) }

/-- An assignment to `thread->state`. -/
def setState (s : Sys) (t : Nat) (st : ThState) : Sys :=
  s.modThread t fun th => { th with state := st }

/-- The place where the thread will go on. -/
def setContext (s : Sys) (t : Nat) (c : Context) : Sys :=
  s.modThread t fun th => { th with context := c }

end Sys

/-- The links of the wait lists. -/
def wcells : CellStore Sys Cell where
  IsCell _ := True
  next s a := s.next a
  prev s a := s.prev a
  setNext s a v := { s with next := Function.update s.next a v }
  setPrev s a v := { s with prev := Function.update s.prev a v }
  next_setNext _ _ _ _ _ := Function.update_self ..
  next_setNext_ne _ _ _ _ _ _ hne := Function.update_of_ne hne ..
  prev_setNext _ _ _ _ _ _ := rfl
  prev_setPrev _ _ _ _ _ := Function.update_self ..
  prev_setPrev_ne _ _ _ _ _ _ hne := Function.update_of_ne hne ..
  next_setPrev _ _ _ _ _ _ := rfl

/-- `thread_item`. -/
def threadItem : Cell → Nat
  | .thread t => t
  | .mutex _ | .barrier _ => 0

section
variable (M : Machine)

/-! ## The scheduler -/

/-- `sched_insert`: the first empty place of the table, or `exit(1)`. -/
def schedInsert (threadNew : Nat) (s : Sys) : Option Sys := do
  let tid ← (List.range M.threadMax).find? fun i => (s.threadTab i).isNone
  let s := s.modThread threadNew fun th => { th with tid := tid }
  let s := { s with threadTab := Function.update s.threadTab tid (some threadNew) }
  some (if s.threadCurrent = 0 then { s with threadCurrent := threadNew } else s)

/-- `sched_unlink`. -/
def schedUnlink (thread : Nat) (s : Sys) : Sys :=
  { s with threadTab := Function.update s.threadTab (s.thread thread).tid none }

/-- The entry `th` of the table is a `READY` thread. -/
def readyAt (s : Sys) (th : Nat) : Bool :=
  match s.threadTab th with
  | none => false
  | some t => (s.thread t).state = .ready

/-- The first loop of `sched_elect`, over the `n` entries from `th` on. -/
def electLoop (s : Sys) : Nat → Nat → Option Nat
  | 0, _ => none
  | n + 1, th =>
    if readyAt s th then some th else electLoop s n ((th + 1) % M.threadMax)

/-- `sched_elect`.  Without a `READY` thread the second loop waits for an
interrupt: `none`. -/
def schedElect (s : Sys) : Option Nat :=
  electLoop M s M.threadMax ((s.threadCurrentIdx + 1) % M.threadMax)

/-- `sched_switch`, up to the point where the elected thread goes on. -/
def schedSwitch (s : Sys) : Option Sys := do
  let thNext ← schedElect M s
  let s :=
    if thNext ≠ s.threadCurrentIdx then
      { s with
        threadCurrentIdx := thNext
        threadCurrent := (s.threadTab thNext).getD 0 }
    else s
  some (s.setState s.threadCurrent .running)

/-! ## Threads -/

/-- `thread_create`.  `none` for a panic or `exit(1)`. -/
def threadCreate (s : Sys) : Option (Errno × Sys × List Event) := do
  let (thread, k) ← kmalloc M.kernel pageSize s.kmem
  let s := { s with kmem := k }
  if thread = 0 then some (.eagain, s, [])
  else
    let (top, u) ← mallocUstack M.user s.umem
    let s := { s with umem := u }
    let s := s.modThread thread fun th =>
      { th with
        ustackB := top, state := .ready, retval := 0, join := none, context := .start }
    let s := listInit wcells s (.thread thread)
    let s ← schedInsert M thread s
    some (.success, s, [.created thread (s.thread thread).tid top])

/-- `thread_destroy`. -/
def threadDestroy (thread : Nat) (s : Sys) : Option (Sys × List Event) :=
  if (s.thread thread).state ≠ .dead then none
  else do
    let top := (s.thread thread).ustackB
    let u ← freeUstack M.user top s.umem
    let s := { s with umem := u }
    let tid := (s.thread thread).tid
    let s := schedUnlink thread s
    let k ← kfree M.kernel thread s.kmem
    some ({ s with kmem := k }, [.pageFreed thread, .slotFreed thread tid, .stackFreed thread top])

/-- `thread_yield`, up to its `sched_switch`. -/
def threadYield (s : Sys) : Sys :=
  (s.setState s.threadCurrent .ready).setContext s.threadCurrent .inYield

/-- `thread_exit`, up to its `sched_switch`. -/
def threadExit (retval : Nat) (s : Sys) : Sys × List Event :=
  let c := s.threadCurrent
  let s := s.modThread c fun th => { th with retval := retval, state := .zombie }
  let s :=
    match (s.thread c).join with
    | none => s
    | some t => s.setState t .ready
  (s.setContext c .inExit, [.exited c retval])

/-- The end of `thread_join`: the value, and the destruction of the thread. -/
def joinEnd (threadExpected : Nat) (s : Sys) : Option (Sys × List Event) := do
  let retval := (s.thread threadExpected).retval
  let s := s.setState threadExpected .dead
  let (s, es) ← threadDestroy M threadExpected s
  some (s, .joined s.threadCurrent threadExpected retval :: es)

/-- `thread_join`, up to its `sched_switch` if it waits. -/
def threadJoin (threadExpected : Option Nat) (s : Sys) :
    Option (Option Errno × Sys × List Event) :=
  match threadExpected with
  | none => some (some .esrch, s, [])
  | some x =>
    let c := s.threadCurrent
    let s := s.modThread x fun th => { th with join := some c }
    if (s.thread x).state ≠ .zombie then
      some (none, (s.setState c .wait).setContext c (.inJoin x), [.joinCalled c x])
    else do
      let (s, es) ← joinEnd M x s
      some (some .success, s, es ++ [.joinCalled c x])

/-- `thread_wait`, up to its `sched_switch` called from `k`. -/
def threadWait (k : Context) (s : Sys) : Sys :=
  let c := s.threadCurrent
  let s := if (s.thread c).state = .running then s.setState c .wait else s
  s.setContext c k

/-- `thread_notify`. -/
def threadNotify (thread : Nat) (s : Sys) : Sys := s.setState thread .ready

/-! ## Mutexes -/

/-- `thread_mutex_lock`. -/
def threadMutexLock (mutex : Option Nat) (s : Sys) : Option Errno × Sys × List Event :=
  match mutex with
  | none => (some .einval, s, [])
  | some m =>
    let c := s.threadCurrent
    if (s.mutex m).busy ≠ 0 ∧ (s.mutex m).owner = some c then (some .edeadlk, s, [])
    else if (s.mutex m).busy ≠ 0 then
      let s := listAddlast wcells s (.mutex m) (.thread c)
      (none, threadWait (.inLock m) s, [.lockBlocked c m])
    else
      (some .success, s.modMutex m fun _ => { busy := 1, owner := some c }, [.lockTaken c m])

/-- `thread_mutex_unlock`. -/
def threadMutexUnlock (mutex : Option Nat) (s : Sys) : Errno × Sys × List Event :=
  match mutex with
  | none => (.einval, s, [])
  | some m =>
    let c := s.threadCurrent
    if (s.mutex m).busy = 0 then (.einval, s, [])
    else if (s.mutex m).owner ≠ some c then (.eperm, s, [])
    else
      let (waitingItem, s) := listGetfirst wcells s (.mutex m)
      match waitingItem with
      | some item =>
        let t := threadItem item
        let s := s.modMutex m fun x => { x with owner := some t }
        (.success, threadNotify t s, [.lockHanded t m, .lockReleased c m])
      | none =>
        (.success, s.modMutex m fun _ => { busy := 0, owner := none }, [.lockReleased c m])

/-! ## Barriers -/

/-- `MAGIC_BARRIER`. -/
def magicBarrier : BitVec 32 := 0xDEADBABA

/-- `thread_barrier_init` of a new barrier, for which `kmalloc` has given the address
`b`. -/
def threadBarrierInit (b count : Nat) (s : Sys) : Errno × Sys :=
  if count = 0 then (.einval, s)
  else
    let s := s.modBarrier b fun _ => { magic := magicBarrier, expected := count, waiting := 0 }
    (.success, listInit wcells s (.barrier b))

/-- The body of the loop of `thread_barrier_wait`. -/
def barrierRelease (s : Sys) (item : Cell) : Sys :=
  threadNotify (threadItem item) (listUnlink wcells s item)

/-- `thread_barrier_wait`.  The fuel of the loop is the number of waiting threads
and one more. -/
def threadBarrierWait (barrier : Option Nat) (s : Sys) :
    Option (Option Errno × Sys × List Event) :=
  match barrier with
  | none => some (some .einval, s, [])
  | some b =>
    if (s.barrier b).magic ≠ magicBarrier then some (some .einval, s, [])
    else
      let c := s.threadCurrent
      let s := s.modBarrier b fun x => { x with waiting := x.waiting + 1 }
      if (s.barrier b).waiting = (s.barrier b).expected then do
        let s ← listForeach wcells ((s.barrier b).waiting + 1) barrierRelease s (.barrier b)
        let s := s.modBarrier b fun x => { x with waiting := 0 }
        some (some .success, s, [.barrierPassed c b, .barrierArrived c b])
      else
        let s := listAddlast wcells s (.barrier b) (.thread c)
        some (none, threadWait (.inBarrier b) s, [.barrierArrived c b])

/-! ## Steps of the machine -/

/-- The system calls. -/
inductive Call where
  | create
  | yield
  | exit (retval : Nat)
  | join (expected : Option Nat)
  | lock (m : Option Nat)
  | unlock (m : Option Nat)
  | barrierWait (b : Option Nat)
  deriving DecidableEq, Repr

/-- A call of the running thread: its return value, or none when it has reached
`sched_switch`. -/
def doCall : Call → Sys → Option (Option Errno × Sys × List Event)
  | .create, s => (threadCreate M s).map fun (e, s, es) => (some e, s, es)
  | .yield, s => some (none, threadYield s, [])
  | .exit v, s => some (none, threadExit v s)
  | .join x, s => threadJoin M x s
  | .lock m, s => some (threadMutexLock m s)
  | .unlock m, s =>
    let (e, s, es) := threadMutexUnlock m s
    some (some e, s, es)
  | .barrierWait b, s => threadBarrierWait b s

/-- The end of the call of the thread that `sched_switch` has resumed. -/
def resume (s : Sys) : Option (Sys × List Event) :=
  let c := s.threadCurrent
  let back := s.setContext c .user
  match (s.thread c).context with
  | .user | .start | .inYield | .inExit => some (back, [])
  | .inJoin x => joinEnd M x back
  | .inLock m => some (back, [.lockTaken c m])
  | .inBarrier b => some (back, [.barrierPassed c b])

/-- One step: a call of the running thread, or the switch that ends a call. -/
inductive Step (M : Machine) : Sys → Option Call → List Event → Sys → Prop where
  | call {s s' : Sys} {c : Call} {r : Option Errno} {es : List Event} :
      (s.thread s.threadCurrent).context = .user → doCall M c s = some (r, s', es) →
      Step M s (some c) es s'
  | switch {s s₁ s' : Sys} {es : List Event} :
      (s.thread s.threadCurrent).context ≠ .user → schedSwitch M s = some s₁ →
      resume M s₁ = some (s', es) → Step M s none es s'

end

end Ko6.Kernel
