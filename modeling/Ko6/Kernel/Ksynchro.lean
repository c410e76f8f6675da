import Ko6.Kernel.ThreadSteps

set_option autoImplicit false

/-!
# Kernel: `ksynchro.c` with its spin locks

The same functions as in `Ko6.Kernel.Kthread`, with the words of the spin locks, and with
the functions that make and destroy mutexes and barriers.  On one processor, and without
interruption in a system call, a lock that is taken when `spin_lock` asks for it is never
given back: the call spins.

`MutexGroot` and `BarrierGroot` are the lists of the objects in them, which are those
that have been made and not been destroyed.  The value that a call stores in `*mutex` or
`*barrier` is returned with its result.
-/

namespace Ko6.Kernel

open Ko6.Lib Ko6.Common

/-! ## Data -/

/-- The return values of `kernel/ksynchro.c`. -/
inductive Ret where
  | errno (e : Errno)
  | ebusy
  | enomem
  deriving DecidableEq, Repr

/-- The field `lock` of a thread, a mutex or a barrier. -/
inductive SpinLock where
  | thread (t : Nat)
  | mutex (m : Nat)
  | barrier (b : Nat)
  deriving DecidableEq, Repr

/-- Why a call does not come to an end: it spins on a lock that is taken, it panics, or
the fuel of its loop is spent. -/
inductive Stop where
  | spins (l : SpinLock)
  | panics
  | loops
  deriving DecidableEq, Repr

/-- The state of the kernel with the spin locks and the global lists. -/
structure Ksys where
  sys : Sys
  lock : SpinLock → Bool
  mutexGroot : List Nat
  barrierGroot : List Nat
  threadPid : Nat → Int
  mutexPid : Nat → Int
  barrierPid : Nat → Int

/-- `sizeof (struct thread_mutex_s)`. -/
def mutexSize : Nat := 32

/-- `sizeof (struct thread_barrier_s)`. -/
def barrierSize : Nat := 36

namespace Ksys

/-- A change of what has no lock word. -/
def modSys (k : Ksys) (f : Sys → Sys) : Ksys := { k with sys := f k.sys }

/-- An assignment to a field `lock`. -/
def setLock (k : Ksys) (l : SpinLock) (v : Bool) : Ksys :=
  { k with lock := Function.update k.lock l v }

/-- `ThreadCurrent`, `NULL` before the first thread is made. -/
def threadCurrent (k : Ksys) : Option Nat :=
  if k.sys.threadCurrent = 0 then none else some k.sys.threadCurrent

/-- `spin_lock`. -/
def spinLock (l : SpinLock) (k : Ksys) : Except Stop Ksys :=
  if k.lock l then .error (.spins l) else .ok (k.setLock l true)

/-- `spin_unlock`. -/
def spinUnlock (l : SpinLock) (k : Ksys) : Ksys := k.setLock l false

/-- `ksynchro_init`. -/
def ksynchroInit (k : Ksys) : Ksys := { k with mutexGroot := [], barrierGroot := [] }

/-! ## Threads -/

/-- `thread_wait`, up to its `sched_switch` called from `ctx`. -/
def threadWait (ctx : Context) (k : Ksys) : Except Stop Ksys := do
  let c := k.sys.threadCurrent
  let k ← spinLock (.thread c) k
  let k := k.modSys (Kernel.threadWait ctx)
  .ok (spinUnlock (.thread c) k)

/-- `thread_notify`. -/
def threadNotify (thread : Nat) (k : Ksys) : Except Stop Ksys := do
  let c := k.sys.threadCurrent
  let k ← spinLock (.thread c) k
  let k := k.modSys (Kernel.threadNotify thread)
  .ok (spinUnlock (.thread c) k)

/-- `thread_exit`, up to its `sched_switch`. -/
def threadExit (retval : Nat) (k : Ksys) : Except Stop Ksys := do
  let c := k.sys.threadCurrent
  let k ← spinLock (.thread c) k
  let k := k.modSys fun s => (Kernel.threadExit retval s).1
  .ok (spinUnlock (.thread c) k)

section
variable (M : Machine)

/-- `thread_create`: the lock of the new thread is free, since `kmalloc` clears its page. -/
def threadCreate (k : Ksys) : Except Stop (Errno × Ksys) :=
  match Kernel.threadCreate M k.sys with
  | none => .error .panics
  | some (e, s, .created t _ _ :: _) => .ok (e, ({ k with sys := s }).setLock (.thread t) false)
  | some (e, s, _) => .ok (e, { k with sys := s })

/-- `thread_join`, up to its `sched_switch` if it waits.  The lock of the expected thread
is given back before the thread is destroyed. -/
def threadJoin (expected : Option Nat) (k : Ksys) : Except Stop (Option Errno × Ksys) :=
  match expected with
  | none => .ok (some .esrch, k)
  | some x => do
    let k ← spinLock (.thread x) k
    let k := spinUnlock (.thread x) k
    match Kernel.threadJoin M (some x) k.sys with
    | none => .error .panics
    | some (r, s, _) => .ok (r, { k with sys := s })

/-! ## Mutexes -/

/-- `thread_mutex_init`. -/
def threadMutexInit (k : Ksys) : Except Stop ((Ret × Option Nat) × Ksys) :=
  match kmalloc M.kernel mutexSize k.sys.kmem with
  | none => .error .panics
  | some (m, kmem) =>
    let k := k.modSys fun s => { s with kmem := kmem }
    if m = 0 then .ok ((.enomem, none), k)
    else
      let k := { k with mutexGroot := k.mutexGroot ++ [m] }
      let k := { k with
        mutexPid := Function.update k.mutexPid m (k.threadPid k.sys.threadCurrent) }
      let k := k.setLock (.mutex m) false
      let k := k.modSys fun s =>
        listInit wcells (s.modMutex m fun _ => { busy := 0, owner := none }) (.mutex m)
      .ok ((.errno .success, some m), k)

/-- `thread_mutex_destroy`. -/
def threadMutexDestroy (mutex : Option Nat) (k : Ksys) : Except Stop (Ret × Ksys) :=
  match mutex with
  | none => .ok (.errno .einval, k)
  | some m =>
    if (k.sys.mutex m).busy ≠ 0 then .ok (.ebusy, k)
    else if (k.sys.mutex m).owner ≠ k.threadCurrent then .ok (.errno .eperm, k)
    else
      let k := { k with mutexGroot := k.mutexGroot.filter (· ≠ m) }
      match kfree M.kernel m k.sys.kmem with
      | none => .error .panics
      | some kmem => .ok (.errno .success, k.modSys fun s => { s with kmem := kmem })

end

/-- `thread_mutex_lock`, up to its `sched_switch` if it waits. -/
def threadMutexLock (mutex : Option Nat) (k : Ksys) : Except Stop (Option Errno × Ksys) :=
  match mutex with
  | none => .ok (some .einval, k)
  | some m =>
    let c := k.sys.threadCurrent
    if (k.sys.mutex m).busy ≠ 0 ∧ (k.sys.mutex m).owner = some c then .ok (some .edeadlk, k)
    else do
      let k ← spinLock (.mutex m) k
      if (k.sys.mutex m).busy ≠ 0 then
        let k := k.modSys fun s => listAddlast wcells s (.mutex m) (.thread c)
        let k := spinUnlock (.mutex m) k
        let k ← threadWait (.inLock m) k
        .ok (none, k)
      else
        let k := k.modSys fun s => s.modMutex m fun _ => { busy := 1, owner := some c }
        .ok (some .success, spinUnlock (.mutex m) k)

/-- `thread_mutex_unlock`. -/
def threadMutexUnlock (mutex : Option Nat) (k : Ksys) : Except Stop (Errno × Ksys) :=
  match mutex with
  | none => .ok (.einval, k)
  | some m =>
    let c := k.sys.threadCurrent
    if (k.sys.mutex m).busy = 0 then .ok (.einval, k)
    else if (k.sys.mutex m).owner ≠ some c then .ok (.eperm, k)
    else do
      let k ← spinLock (.mutex m) k
      let (waitingItem, s) := listGetfirst wcells k.sys (.mutex m)
      let k := { k with sys := s }
      match waitingItem with
      | some item =>
        let t := threadItem item
        let k := k.modSys fun s => s.modMutex m fun x => { x with owner := some t }
        let k ← threadNotify t k
        .ok (.success, spinUnlock (.mutex m) k)
      | none =>
        let k := k.modSys fun s => s.modMutex m fun _ => { busy := 0, owner := none }
        .ok (.success, spinUnlock (.mutex m) k)

/-! ## Barriers -/

/-- `thread_barrier_init`.  On a barrier that exists the function takes the lock a second
time at both of its ends, where the comments say that it is released. -/
def threadBarrierInit (M : Machine) (barrier : Option Nat) (count : Nat) (k : Ksys) :
    Except Stop ((Ret × Option Nat) × Ksys) :=
  if count = 0 then .ok ((.errno .einval, barrier), k)
  else
    match barrier with
    | none =>
      match kmalloc M.kernel barrierSize k.sys.kmem with
      | none => .error .panics
      | some (b, kmem) =>
        let k := k.modSys fun s => { s with kmem := kmem }
        if b = 0 then .ok ((.enomem, none), k)
        else
          let k := { k with barrierGroot := k.barrierGroot ++ [b] }
          let k := { k with
            barrierPid := Function.update k.barrierPid b (k.threadPid k.sys.threadCurrent) }
          let k := k.setLock (.barrier b) false
          let k := k.modSys fun s => (Kernel.threadBarrierInit b count s).2
          .ok ((.errno .success, some b), k)
    | some b =>
      if (k.sys.barrier b).magic ≠ magicBarrier then .ok ((.errno .einval, barrier), k)
      else do
        let k ← spinLock (.barrier b) k
        if (k.sys.barrier b).waiting ≠ 0 then
          let k ← spinLock (.barrier b) k
          .ok ((.ebusy, barrier), k)
        else
          let k := k.modSys fun s => s.modBarrier b fun x => { x with expected := count }
          let k ← spinLock (.barrier b) k
          .ok ((.errno .success, barrier), k)

/-- The loop of `thread_barrier_wait`. -/
def releaseLoop (root : Cell) : Nat → Ksys → Cell → Cell → Except Stop Ksys
  | 0, _, _, _ => .error .loops
  | n + 1, k, item, nxt =>
    if item = root then .ok k
    else do
      let k := k.modSys fun s => listUnlink wcells s item
      let k ← threadNotify (threadItem item) k
      releaseLoop root n k nxt (wcells.next k.sys nxt)

/-- `thread_barrier_wait`, up to its `sched_switch` if it waits, with at most `fuel` turns
of its loop. -/
def threadBarrierWait (fuel : Nat) (barrier : Option Nat) (k : Ksys) :
    Except Stop (Option Errno × Ksys) :=
  match barrier with
  | none => .ok (some .einval, k)
  | some b =>
    if (k.sys.barrier b).magic ≠ magicBarrier then .ok (some .einval, k)
    else do
      let c := k.sys.threadCurrent
      let k ← spinLock (.barrier b) k
      let k := k.modSys fun s => s.modBarrier b fun x => { x with waiting := x.waiting + 1 }
      if (k.sys.barrier b).waiting = (k.sys.barrier b).expected then
        let first := wcells.next k.sys (.barrier b)
        let k ← releaseLoop (.barrier b) fuel k first (wcells.next k.sys first)
        let k := k.modSys fun s => s.modBarrier b fun x => { x with waiting := 0 }
        .ok (some .success, spinUnlock (.barrier b) k)
      else
        let k := k.modSys fun s => listAddlast wcells s (.barrier b) (.thread c)
        let k := spinUnlock (.barrier b) k
        let k ← threadWait (.inBarrier b) k
        .ok (none, k)

/-- `thread_barrier_destroy`. -/
def threadBarrierDestroy (M : Machine) (barrier : Option Nat) (k : Ksys) :
    Except Stop (Ret × Ksys) :=
  match barrier with
  | none => .ok (.errno .einval, k)
  | some b =>
    if (k.sys.barrier b).magic ≠ magicBarrier then .ok (.errno .einval, k)
    else do
      let k ← spinLock (.barrier b) k
      if (k.sys.barrier b).waiting ≠ 0 then .ok (.ebusy, spinUnlock (.barrier b) k)
      else
        let k := { k with barrierGroot := k.barrierGroot.filter (· ≠ b) }
        match kfree M.kernel b k.sys.kmem with
        | none => .error .panics
        | some kmem => .ok (.errno .success, k.modSys fun s => { s with kmem := kmem })

end Ksys

/-! ## Steps of the machine -/

/-- The system calls, those of `Call` and four more. -/
inductive SynCall where
  | base (c : Call)
  | mutexInit
  | mutexDestroy (m : Option Nat)
  | barrierInit (b : Option Nat) (count : Nat)
  | barrierDestroy (b : Option Nat)
  deriving DecidableEq, Repr

namespace Ksys

section
variable (M : Machine) (fuel : Nat)

/-- A call of the running thread: its return value, or none when it has reached
`sched_switch`. -/
def doCall : SynCall → Ksys → Except Stop (Option Ret × Ksys)
  | .base .create, k => (threadCreate M k).map fun (e, k) => (some (.errno e), k)
  | .base .yield, k => .ok (none, k.modSys threadYield)
  | .base (.exit v), k => (threadExit v k).map fun k => (none, k)
  | .base (.join x), k => (threadJoin M x k).map fun (r, k) => (r.map .errno, k)
  | .base (.lock m), k => (threadMutexLock m k).map fun (r, k) => (r.map .errno, k)
  | .base (.unlock m), k => (threadMutexUnlock m k).map fun (e, k) => (some (.errno e), k)
  | .base (.barrierWait b), k =>
    (threadBarrierWait fuel b k).map fun (r, k) => (r.map .errno, k)
  | .mutexInit, k => (threadMutexInit M k).map fun (e, k) => (some e.1, k)
  | .mutexDestroy m, k => (threadMutexDestroy M m k).map fun (e, k) => (some e, k)
  | .barrierInit b count, k => (threadBarrierInit M b count k).map fun (e, k) => (some e.1, k)
  | .barrierDestroy b, k => (threadBarrierDestroy M b k).map fun (e, k) => (some e, k)

end

/-- The objects that exist, by their locks. -/
def Exists (k : Ksys) : SpinLock → Prop
  | .thread _ => True
  | .mutex m => m ∈ k.mutexGroot
  | .barrier b => b ∈ k.barrierGroot

/-- The argument of a call is `NULL` or an object that exists; that of a barrier call may
also be an object that is no barrier. -/
def Takes (k : Ksys) : SynCall → Prop
  | .base (.lock (some m)) | .base (.unlock (some m)) | .mutexDestroy (some m) =>
    k.Exists (.mutex m)
  | .base (.barrierWait (some b)) | .barrierInit (some b) _ | .barrierDestroy (some b) =>
    k.Exists (.barrier b) ∨ (k.sys.barrier b).magic ≠ magicBarrier
  | _ => True

/-- One step: a call of the running thread, or the switch that ends a call. -/
inductive Step (M : Machine) : Ksys → Option SynCall → Ksys → Prop where
  | call {k k' : Ksys} {c : SynCall} {fuel : Nat} {r : Option Ret} :
      (k.sys.thread k.sys.threadCurrent).context = .user → k.Takes c →
      doCall M fuel c k = .ok (r, k') → Step M k (some c) k'
  | switch {k : Ksys} {s₁ s' : Sys} {es : List Event} :
      (k.sys.thread k.sys.threadCurrent).context ≠ .user → schedSwitch M k.sys = some s₁ →
      resume M s₁ = some (s', es) → Step M k none { k with sys := s' }

/-- The states that are reached from `k₀`. -/
inductive Run (M : Machine) (k₀ : Ksys) : Ksys → Prop where
  | init : Run M k₀ k₀
  | step {k k' : Ksys} {c : Option SynCall} : Run M k₀ k → Step M k c k' → Run M k₀ k'

end Ksys

end Ko6.Kernel
