import Ko6.Kernel.Ksynchro

set_option autoImplicit false

/-!
# Kernel: the spin locks are balanced

Between two calls the spin locks of all objects that exist are free (`LocksFree`).  From
such a state a call takes and gives back its locks in pairs, and what it does otherwise is
what it does without them; the only exception is `thread_barrier_init` of a barrier that
exists, which spins on the lock it has taken itself.
-/

namespace Ko6.Kernel

open Ko6.Lib Ko6.Common

namespace Ksys

/-! ## Balanced calls -/

/-- The spin locks of the objects that exist are free. -/
def LocksFree (k : Ksys) : Prop := ∀ l, k.Exists l → k.lock l = false

/-- The outcome of a call: it does not spin, and where it comes to an end the locks are
free. -/
def Settled {α : Type} : Except Stop (α × Ksys) → Prop
  | .error (.spins _) => False
  | .error _ => True
  | .ok (_, k) => k.LocksFree

/-- On no path does the call ask for a lock that is taken, and when it returns or has
reached `sched_switch` the locks are free. -/
def Balanced (M : Machine) (k : Ksys) (c : SynCall) : Prop := ∀ fuel, Settled (doCall M fuel c k)

/-- The call gets to the second part of `thread_barrier_init`, for a barrier that
exists. -/
def Reinits (k : Ksys) : SynCall → Prop
  | .barrierInit (some b) count => count ≠ 0 ∧ (k.sys.barrier b).magic = magicBarrier
  | _ => False

section
variable {M : Machine} {k k' : Ksys} {l : SpinLock} {f : Sys → Sys} {m b t fuel : Nat}

theorem LocksFree.same (h : k.LocksFree) (hlock : k'.lock = k.lock)
    (hex : ∀ l, k'.Exists l → k.Exists l) : k'.LocksFree := by
  intro l hl
  rw [hlock]
  exact h l (hex l hl)

theorem exists_of_groots (hm : k'.mutexGroot = k.mutexGroot)
    (hb : k'.barrierGroot = k.barrierGroot) : k'.Exists l ↔ k.Exists l := by
  cases l with
  | thread t => exact Iff.rfl
  | mutex m => exact iff_of_eq (congrArg (m ∈ ·) hm)
  | barrier b => exact iff_of_eq (congrArg (b ∈ ·) hb)

theorem LocksFree.modSys (h : k.LocksFree) : (k.modSys f).LocksFree :=
  h.same rfl fun _ => (exists_of_groots rfl rfl).mp

/-- A lock that is given back to objects that are not all older. -/
theorem LocksFree.made (h : k.LocksFree) (hlock : k'.lock = Function.update k.lock l false)
    (hex : ∀ l', k'.Exists l' → l' = l ∨ k.Exists l') : k'.LocksFree := by
  intro l' hl'
  rw [hlock]
  by_cases hne : l' = l
  · rw [hne, Function.update_self]
  · rw [Function.update_of_ne hne]
    exact h l' ((hex l' hl').resolve_left hne)

theorem Settled.map {α β : Type} {r : Except Stop (α × Ksys)} {g : α × Ksys → β × Ksys}
    (h : Settled r) (hg : ∀ x, (g x).2 = x.2) : Settled (r.map g) := by
  match r with
  | .error (.spins _) => exact h
  | .error .panics => trivial
  | .error .loops => trivial
  | .ok x =>
    change (g x).2.LocksFree
    rw [hg]
    exact h

/-! ## Critical sections -/

theorem spinLock_free (h : k.lock l = false) : spinLock l k = .ok (k.setLock l true) := by
  unfold spinLock
  rw [h]
  rfl

theorem spinLock_taken (h : k.lock l = true) : spinLock l k = .error (.spins l) := if_pos h

/-- A section that takes a free lock and gives it back leaves the locks as they were. -/
theorem spinUnlock_section (h : k.lock l = false) :
    spinUnlock l ((k.setLock l true).modSys f) = k.modSys f := by
  have hlock : Function.update (Function.update k.lock l true) l false = k.lock := by
    rw [Function.update_idem, ← h, Function.update_eq_self]
  unfold spinUnlock setLock Ksys.modSys
  rw [hlock]

theorem spinLock_bind {α : Type} {g : Ksys → Except Stop α} (h : k.lock l = false) :
    (spinLock l k >>= g) = g (k.setLock l true) := by
  rw [spinLock_free h]
  rfl

theorem threadWait_free (ctx : Context) (h : k.lock (.thread k.sys.threadCurrent) = false) :
    threadWait ctx k = .ok (k.modSys (Kernel.threadWait ctx)) :=
  (spinLock_bind h).trans (congrArg Except.ok (spinUnlock_section h))

theorem threadNotify_free (h : k.lock (.thread k.sys.threadCurrent) = false) :
    threadNotify t k = .ok (k.modSys (Kernel.threadNotify t)) :=
  (spinLock_bind h).trans (congrArg Except.ok (spinUnlock_section h))

theorem threadExit_free {v : Nat} (h : k.lock (.thread k.sys.threadCurrent) = false) :
    threadExit v k = .ok (k.modSys fun s => (Kernel.threadExit v s).1) :=
  (spinLock_bind h).trans (congrArg Except.ok (spinUnlock_section h))

theorem threadJoin_free {x : Nat} {r : Option (Option Errno × Sys × List Event)}
    (h : k.lock (.thread x) = false) (hcall : Kernel.threadJoin M (some x) k.sys = r) :
    threadJoin M (some x) k =
      r.elim (.error .panics) fun r => .ok (r.1, { k with sys := r.2.1 }) := by
  have hback : spinUnlock (.thread x) (k.setLock (.thread x) true) = k :=
    spinUnlock_section (f := id) h
  unfold threadJoin
  simp only [spinLock_free h, bind, Except.bind, hback, hcall]
  cases r <;> rfl

/-! ## Mutexes -/

section
variable {r : Option Errno} {e : Errno} {s' : Sys} {es : List Event}

/-- `thread_mutex_lock` with free locks does what it does without them. -/
theorem threadMutexLock_free (hm : k.lock (.mutex m) = false)
    (hc : k.lock (.thread k.sys.threadCurrent) = false)
    (h : Kernel.threadMutexLock (some m) k.sys = (r, s', es)) :
    threadMutexLock (some m) k = .ok (r, { k with sys := s' }) := by
  unfold Kernel.threadMutexLock at h
  by_cases hown : (k.sys.mutex m).busy ≠ 0 ∧ (k.sys.mutex m).owner = some k.sys.threadCurrent
  · simp only [if_pos hown] at h
    cases h
    exact if_pos hown
  · simp only [if_neg hown] at h
    refine (if_neg hown).trans ((spinLock_bind hm).trans ?_)
    by_cases hbusy : (k.sys.mutex m).busy ≠ 0
    · simp only [if_pos hbusy] at h
      cases h
      have hwait := threadWait_free (.inLock m) (k := k.modSys fun s =>
        listAddlast wcells s (.mutex m) (.thread k.sys.threadCurrent)) hc
      refine (if_pos hbusy).trans ?_
      change (threadWait (.inLock m) (spinUnlock (.mutex m) ((k.setLock (.mutex m) true).modSys
        fun s => listAddlast wcells s (.mutex m) (.thread k.sys.threadCurrent))) >>=
        fun k => .ok (none, k)) = _
      rw [spinUnlock_section hm, hwait]
      rfl
    · simp only [if_neg hbusy] at h
      cases h
      refine (if_neg hbusy).trans ?_
      change Except.ok (some Errno.success, spinUnlock (.mutex m) ((k.setLock (.mutex m) true).modSys
        fun s => s.modMutex m fun _ => { busy := 1, owner := some k.sys.threadCurrent })) = _
      rw [spinUnlock_section hm]
      rfl

/-- `thread_mutex_unlock` with free locks does what it does without them. -/
theorem threadMutexUnlock_free (hm : k.lock (.mutex m) = false)
    (hc : k.lock (.thread k.sys.threadCurrent) = false)
    (h : Kernel.threadMutexUnlock (some m) k.sys = (e, s', es)) :
    threadMutexUnlock (some m) k = .ok (e, { k with sys := s' }) := by
  unfold Kernel.threadMutexUnlock at h
  by_cases hfree : (k.sys.mutex m).busy = 0
  · simp only [if_pos hfree] at h
    cases h
    exact if_pos hfree
  simp only [if_neg hfree] at h
  refine (if_neg hfree).trans ?_
  by_cases hown : (k.sys.mutex m).owner ≠ some k.sys.threadCurrent
  · simp only [if_pos hown] at h
    cases h
    exact if_pos hown
  simp only [if_neg hown] at h
  refine (if_neg hown).trans ((spinLock_bind hm).trans ?_)
  cases hfirst : listGetfirst wcells k.sys (.mutex m) with
  | mk waitingItem s₁ =>
    rw [hfirst] at h
    have hget : listGetfirst wcells (k.setLock (.mutex m) true).sys (.mutex m) =
      (waitingItem, s₁) := hfirst
    simp only [hget]
    have hcur : s₁.threadCurrent = k.sys.threadCurrent := by
      have hkeep : (listGetfirst wcells k.sys (.mutex m)).2.threadCurrent =
          k.sys.threadCurrent := by
        unfold listGetfirst
        split <;> rfl
      rwa [hfirst] at hkeep
    cases waitingItem with
    | some item =>
      cases h
      have hnotify := threadNotify_free (t := threadItem item)
        (k := (k.setLock (.mutex m) true).modSys fun _ =>
          s₁.modMutex m fun x => { x with owner := some (threadItem item) })
        (by
          change Function.update k.lock (.mutex m) true (.thread s₁.threadCurrent) = false
          rw [hcur, Function.update_of_ne (by simp), hc])
      change (threadNotify (threadItem item) ((k.setLock (.mutex m) true).modSys fun _ =>
        s₁.modMutex m fun x => { x with owner := some (threadItem item) }) >>=
        fun k => .ok (Errno.success, spinUnlock (.mutex m) k)) = _
      rw [hnotify]
      change Except.ok (Errno.success, spinUnlock (.mutex m) ((k.setLock (.mutex m) true).modSys
        fun _ => Kernel.threadNotify (threadItem item)
          (s₁.modMutex m fun x => { x with owner := some (threadItem item) }))) = _
      rw [spinUnlock_section hm]
      rfl
    | none =>
      cases h
      change Except.ok (Errno.success, spinUnlock (.mutex m) ((k.setLock (.mutex m) true).modSys
        fun _ => s₁.modMutex m fun _ => { busy := 0, owner := none })) = _
      rw [spinUnlock_section hm]
      rfl

/-! ## Barriers -/

/-- The loop of `thread_barrier_wait` with a free lock of the running thread. -/
theorem releaseLoop_free {root item nxt : Cell} {n : Nat}
    (h : k.lock (.thread k.sys.threadCurrent) = false) :
    releaseLoop root n k item nxt =
      (foreachLoop wcells barrierRelease root n k.sys item nxt).elim (.error .loops)
        fun s => .ok { k with sys := s } := by
  induction n generalizing k item nxt with
  | zero => rfl
  | succ n ih =>
    unfold releaseLoop foreachLoop
    by_cases hitem : item = root
    · simp only [if_pos hitem]
      rfl
    · simp only [if_neg hitem]
      have hnotify := threadNotify_free (t := threadItem item)
        (k := k.modSys fun s => listUnlink wcells s item) h
      rw [hnotify]
      exact ih h

/-- The loop inside a section of another lock. -/
theorem releaseLoop_section {α : Type} {a : α} {root item nxt : Cell} {n : Nat}
    (hl : k.lock l = false) (h : k.lock (.thread k.sys.threadCurrent) = false)
    (hne : SpinLock.thread k.sys.threadCurrent ≠ l) :
    (releaseLoop root n (k.setLock l true) item nxt >>= fun k =>
        .ok (a, spinUnlock l (k.modSys f))) =
      (foreachLoop wcells barrierRelease root n k.sys item nxt).elim (.error .loops)
        fun s => .ok (a, { k with sys := f s }) := by
  have hthread : (k.setLock l true).lock (.thread k.sys.threadCurrent) = false :=
    (Function.update_of_ne hne ..).trans h
  rw [releaseLoop_free (k := k.setLock l true) hthread]
  change (Option.elim (foreachLoop wcells barrierRelease root n k.sys item nxt) _ _ >>= _) = _
  cases foreachLoop wcells barrierRelease root n k.sys item nxt with
  | none => rfl
  | some s =>
    change Except.ok (a, spinUnlock l ((k.setLock l true).modSys fun _ => f s)) = _
    rw [spinUnlock_section hl]
    rfl

/-- `thread_barrier_wait` with free locks. -/
theorem threadBarrierWait_free (hb : k.lock (.barrier b) = false)
    (hc : k.lock (.thread k.sys.threadCurrent) = false)
    (hmagic : (k.sys.barrier b).magic = magicBarrier)
    (hs : s' = k.sys.modBarrier b fun x => { x with waiting := x.waiting + 1 }) :
    threadBarrierWait fuel (some b) k =
      if (s'.barrier b).waiting = (s'.barrier b).expected then
        (listForeach wcells fuel barrierRelease s' (.barrier b)).elim (.error .loops) fun s =>
          .ok (some .success, { k with sys := s.modBarrier b fun x => { x with waiting := 0 } })
      else
        .ok (none, k.modSys fun s => Kernel.threadWait (.inBarrier b)
          (listAddlast wcells s' (.barrier b) (.thread s.threadCurrent))) := by
  subst hs
  refine (if_neg (not_not.mpr hmagic)).trans ((spinLock_bind hb).trans ?_)
  split
  · rename_i hfull
    exact (if_pos hfull).trans (releaseLoop_section (k := k.modSys fun s =>
      s.modBarrier b fun x => { x with waiting := x.waiting + 1 }) hb hc (by simp))
  · rename_i hmore
    have hwait := threadWait_free (.inBarrier b) (k := k.modSys fun s =>
      listAddlast wcells (s.modBarrier b fun x => { x with waiting := x.waiting + 1 }) (.barrier b)
        (.thread k.sys.threadCurrent)) hc
    refine (if_neg hmore).trans ?_
    change (threadWait (.inBarrier b) (spinUnlock (.barrier b) ((k.setLock (.barrier b) true).modSys
      fun s => listAddlast wcells (s.modBarrier b fun x => { x with waiting := x.waiting + 1 })
        (.barrier b) (.thread k.sys.threadCurrent))) >>= fun k => .ok (none, k)) = _
    rw [spinUnlock_section hb, hwait]
    rfl

end

/-! ## Every call -/

theorem LocksFree.current (h : k.LocksFree) : k.lock (.thread k.sys.threadCurrent) = false :=
  h _ trivial

theorem LocksFree.sys (h : k.LocksFree) {s : Sys} : ({ k with sys := s } : Ksys).LocksFree :=
  h.modSys (f := fun _ => s)

theorem threadCreate_settled (h : k.LocksFree) : Settled (threadCreate M k) := by
  unfold threadCreate
  split
  · trivial
  · exact h.made rfl fun _ hl => .inr ((exists_of_groots rfl rfl).mp hl)
  · exact h.sys

theorem threadJoin_settled (h : k.LocksFree) {x : Option Nat} : Settled (threadJoin M x k) := by
  cases x with
  | none => exact h
  | some x =>
    rw [threadJoin_free (h _ trivial) rfl]
    cases Kernel.threadJoin M (some x) k.sys with
    | none => trivial
    | some r => exact h.sys

theorem threadMutexLock_settled (h : k.LocksFree) {x : Option Nat}
    (hx : ∀ m ∈ x, k.Exists (.mutex m)) : Settled (threadMutexLock x k) := by
  cases x with
  | none => exact h
  | some m =>
    rw [threadMutexLock_free (h _ (hx m rfl)) h.current rfl]
    exact h.sys

theorem threadMutexUnlock_settled (h : k.LocksFree) {x : Option Nat}
    (hx : ∀ m ∈ x, k.Exists (.mutex m)) : Settled (threadMutexUnlock x k) := by
  cases x with
  | none => exact h
  | some m =>
    rw [threadMutexUnlock_free (h _ (hx m rfl)) h.current rfl]
    exact h.sys

theorem threadBarrierWait_settled (h : k.LocksFree) {x : Option Nat}
    (hx : ∀ b ∈ x, k.Exists (.barrier b) ∨ (k.sys.barrier b).magic ≠ magicBarrier) :
    Settled (threadBarrierWait fuel x k) := by
  cases x with
  | none => exact h
  | some b =>
    by_cases hmagic : (k.sys.barrier b).magic = magicBarrier
    · have hb := h _ ((hx b rfl).resolve_right (not_not.mpr hmagic))
      rw [threadBarrierWait_free hb h.current hmagic rfl]
      split
      · cases listForeach wcells fuel barrierRelease _ (Cell.barrier b) with
        | none => trivial
        | some s => exact h.sys
      · exact h.modSys
    · rw [threadBarrierWait, if_pos hmagic]
      exact h

theorem threadMutexInit_settled (h : k.LocksFree) : Settled (threadMutexInit M k) := by
  unfold threadMutexInit
  split
  · trivial
  · rename_i m kmem _
    simp only
    split
    · exact h.modSys
    · refine h.made (l := .mutex m) rfl fun l hl => ?_
      cases l with
      | thread t => exact .inr trivial
      | barrier b => exact .inr hl
      | mutex m' =>
        rcases List.mem_append.mp hl with hold | hnew
        · exact .inr hold
        · exact .inl (congrArg SpinLock.mutex (List.mem_singleton.mp hnew))

theorem threadMutexDestroy_settled (h : k.LocksFree) {x : Option Nat} :
    Settled (threadMutexDestroy M x k) := by
  cases x with
  | none => exact h
  | some m =>
    unfold threadMutexDestroy
    simp only
    split
    · exact h
    split
    · exact h
    split
    · trivial
    · refine h.same rfl fun l hl => ?_
      cases l with
      | thread t => trivial
      | barrier b => exact hl
      | mutex m' => exact List.mem_of_mem_filter hl

/-- The first part of `thread_barrier_init`. -/
theorem threadBarrierInit_settled (h : k.LocksFree) {x : Option Nat} {count : Nat}
    (hx : ¬ k.Reinits (.barrierInit x count)) : Settled (threadBarrierInit M x count k) := by
  unfold threadBarrierInit
  split
  · exact h
  rename_i hcount
  cases x with
  | some b =>
    simp only
    rw [if_pos fun hmagic => hx ⟨hcount, hmagic⟩]
    exact h
  | none =>
    simp only
    split
    · trivial
    · rename_i b kmem _
      split
      · exact h.modSys
      · refine h.made (l := .barrier b) rfl fun l hl => ?_
        cases l with
        | thread t => exact .inr trivial
        | mutex m => exact .inr hl
        | barrier b' =>
          rcases List.mem_append.mp hl with hold | hnew
          · exact .inr hold
          · exact .inl (congrArg SpinLock.barrier (List.mem_singleton.mp hnew))

theorem threadBarrierDestroy_settled (h : k.LocksFree) {x : Option Nat}
    (hx : ∀ b ∈ x, k.Exists (.barrier b) ∨ (k.sys.barrier b).magic ≠ magicBarrier) :
    Settled (threadBarrierDestroy M x k) := by
  cases x with
  | none => exact h
  | some b =>
    unfold threadBarrierDestroy
    simp only
    split
    · exact h
    rename_i hmagic
    have hb := h _ ((hx b rfl).resolve_right hmagic)
    rw [spinLock_bind hb]
    split
    · have hback : spinUnlock (.barrier b) (k.setLock (.barrier b) true) = k :=
        spinUnlock_section (f := id) hb
      rw [hback]
      exact h
    split
    · trivial
    · -- the lock stays taken, and its barrier is no more
      intro l hl
      have hother : l ≠ .barrier b → (k.setLock (.barrier b) true).lock l = k.lock l :=
        fun hne => Function.update_of_ne hne ..
      cases l with
      | thread t => exact (hother (by simp)).trans (h (.thread t) trivial)
      | mutex m => exact (hother (by simp)).trans (h (.mutex m) hl)
      | barrier b' =>
        obtain ⟨hmem, hne⟩ := List.mem_filter.mp hl
        have hne' : b' ≠ b := of_decide_eq_true hne
        exact (hother (by simpa using hne')).trans (h (.barrier b') hmem)

/-- A call that does not initialise a barrier again is balanced. -/
theorem LocksFree.balanced {c : SynCall} (h : k.LocksFree) (hc : k.Takes c) (hno : ¬ k.Reinits c) :
    Balanced M k c := by
  intro fuel
  cases c with
  | base c =>
    cases c with
    | create => exact (threadCreate_settled h).map fun _ => rfl
    | yield => exact h.modSys
    | exit v =>
      rw [doCall, threadExit_free h.current]
      exact h.modSys
    | join x => exact (threadJoin_settled h).map fun _ => rfl
    | lock x =>
      refine (threadMutexLock_settled h ?_).map fun _ => rfl
      rintro m rfl
      exact hc
    | unlock x =>
      refine (threadMutexUnlock_settled h ?_).map fun _ => rfl
      rintro m rfl
      exact hc
    | barrierWait x =>
      refine (threadBarrierWait_settled h ?_).map fun _ => rfl
      rintro b rfl
      exact hc
  | mutexInit => exact (threadMutexInit_settled h).map fun _ => rfl
  | mutexDestroy x => exact (threadMutexDestroy_settled h).map fun _ => rfl
  | barrierInit x count => exact (threadBarrierInit_settled h hno).map fun _ => rfl
  | barrierDestroy x =>
    refine (threadBarrierDestroy_settled h ?_).map fun _ => rfl
    rintro b rfl
    exact hc

/-- `thread_barrier_init` of a barrier that exists spins on the lock it has taken, whether
threads wait at the barrier or not. -/
theorem threadBarrierInit_spins {count : Nat} (hb : k.lock (.barrier b) = false)
    (hcount : count ≠ 0) (hmagic : (k.sys.barrier b).magic = magicBarrier) :
    threadBarrierInit M (some b) count k = .error (.spins (.barrier b)) := by
  unfold threadBarrierInit
  rw [if_neg hcount]
  simp only
  rw [if_neg (not_not.mpr hmagic), spinLock_bind hb]
  have htaken : (k.setLock (.barrier b) true).lock (.barrier b) = true := Function.update_self ..
  split
  · rw [spinLock_taken htaken]
    rfl
  · rw [spinLock_taken (k := (k.setLock (.barrier b) true).modSys _) htaken]
    rfl

theorem LocksFree.spins {c : SynCall} (h : k.LocksFree) (hc : k.Takes c) (hre : k.Reinits c) :
    ∃ b, ∀ fuel, doCall M fuel c k = .error (.spins (.barrier b)) := by
  match c, hc, hre with
  | .barrierInit (some b) count, hc, ⟨hcount, hmagic⟩ =>
    have hb := h _ (hc.resolve_right (not_not.mpr hmagic))
    refine ⟨b, fun fuel => ?_⟩
    rw [doCall, threadBarrierInit_spins hb hcount hmagic]
    rfl

/-! ## The machine without spin locks -/

section
variable {c : Call} {r : Option Errno} {s' : Sys} {es : List Event}

theorem threadCreate_free {e : Errno} (h : ∀ t, k.lock (.thread t) = false)
    (hcall : Kernel.threadCreate M k.sys = some (e, s', es)) :
    threadCreate M k = .ok (e, { k with sys := s' }) := by
  unfold threadCreate
  rw [hcall]
  split
  · exact absurd ‹_› (by simp)
  · rename_i t _ _ _ heq
    cases heq
    have hlock : Function.update k.lock (.thread t) false = k.lock := by
      rw [← h t, Function.update_eq_self]
    simp only [setLock, hlock]
  · rename_i heq
    cases heq
    rfl

/-- With free locks a call does what it does on the machine without spin locks. -/
theorem LocksFree.doCall_base (h : k.LocksFree) (hc : k.Takes (.base c))
    (hcall : Kernel.doCall M c k.sys = some (r, s', es)) :
    ∃ fuel, doCall M fuel (.base c) k = .ok (r.map .errno, { k with sys := s' }) := by
  cases c with
  | create =>
    obtain ⟨⟨e, s₁, es₁⟩, hbase, heq⟩ := Option.map_eq_some_iff.mp hcall
    cases heq
    refine ⟨0, ?_⟩
    rw [doCall, threadCreate_free (fun t => h (.thread t) trivial) hbase]
    rfl
  | yield =>
    cases hcall
    exact ⟨0, rfl⟩
  | exit v =>
    cases hcall
    refine ⟨0, ?_⟩
    rw [doCall, threadExit_free h.current]
    rfl
  | join x =>
    refine ⟨0, ?_⟩
    cases x with
    | none =>
      cases hcall
      rfl
    | some x =>
      rw [Kernel.doCall] at hcall
      rw [doCall, threadJoin_free (h (.thread x) trivial) hcall]
      rfl
  | lock x =>
    refine ⟨0, ?_⟩
    cases x with
    | none =>
      cases hcall
      rfl
    | some m =>
      rw [doCall, threadMutexLock_free (h (.mutex m) hc) h.current (Option.some.inj hcall)]
      rfl
  | unlock x =>
    refine ⟨0, ?_⟩
    cases x with
    | none =>
      cases hcall
      rfl
    | some m =>
      cases hcall
      rw [doCall, threadMutexUnlock_free (h (.mutex m) hc) h.current rfl]
      rfl
  | barrierWait x =>
    cases x with
    | none =>
      cases hcall
      exact ⟨0, rfl⟩
    | some b =>
      by_cases hmagic : (k.sys.barrier b).magic = magicBarrier
      · have hb := h (.barrier b) (hc.resolve_right (not_not.mpr hmagic))
        obtain ⟨s₁, hs₁⟩ : ∃ s₁, s₁ = k.sys.modBarrier b fun x =>
          { x with waiting := x.waiting + 1 } := ⟨_, rfl⟩
        rw [Kernel.doCall, Kernel.threadBarrierWait, if_neg (not_not.mpr hmagic), ← hs₁] at hcall
        refine ⟨(s₁.barrier b).waiting + 1, ?_⟩
        rw [doCall, threadBarrierWait_free hb h.current hmagic hs₁]
        simp only at hcall
        split at hcall
        · rename_i hfull
          obtain ⟨s₂, hloop, heq⟩ := Option.bind_eq_some_iff.mp hcall
          cases heq
          rw [if_pos hfull, hloop]
          rfl
        · rename_i hmore
          cases hcall
          rw [if_neg hmore]
          rfl
      · rw [Kernel.doCall, Kernel.threadBarrierWait, if_pos hmagic] at hcall
        cases hcall
        refine ⟨0, ?_⟩
        rw [doCall, threadBarrierWait, if_pos hmagic]
        rfl

end

/-! ## Runs -/

theorem locksFree_ksynchroInit (h : ∀ t, k.lock (.thread t) = false) :
    (ksynchroInit k).LocksFree := by
  intro l hl
  cases l with
  | thread t => exact h t
  | mutex m => exact absurd hl List.not_mem_nil
  | barrier b => exact absurd hl List.not_mem_nil

theorem LocksFree.step {c : Option SynCall} (h : k.LocksFree) (hstep : Step M k c k') :
    k'.LocksFree := by
  cases hstep with
  | switch _ _ _ => exact h.sys
  | @call _ c fuel r _ hc hcall =>
    by_cases hre : k.Reinits c
    · -- such a call does not come to an end
      obtain ⟨b, hspins⟩ := h.spins (M := M) hc hre
      rw [hspins] at hcall
      exact absurd hcall (by simp)
    · have hset := h.balanced (M := M) hc hre fuel
      rw [hcall] at hset
      exact hset

theorem Run.locksFree {k₀ : Ksys} (h₀ : k₀.LocksFree) (h : Run M k₀ k) : k.LocksFree := by
  induction h with
  | init => exact h₀
  | step _ hstep ih => exact ih.step hstep

/-- A run of the machine without spin locks is one of the machine with them, as long as
its calls take objects that exist. -/
theorem Run.of_unlocked {ok : Sys → List Event → Call → Prop} {k₀ : Ksys} {s : Sys}
    {tr : List Event} (h₀ : k₀.LocksFree)
    (hok : ∀ s tr c, ok s tr c → ({ k₀ with sys := s } : Ksys).Takes (.base c))
    (h : Kernel.Run M ok k₀.sys s tr) : Run M k₀ { k₀ with sys := s } := by
  induction h with
  | init => exact .init
  | @step s s' tr es c _ hcok hstep ih =>
    cases hstep with
    | switch hc hsw hres => exact ih.step (.switch hc hsw hres)
    | @call _ c _ _ hc hcall =>
      have htakes := hok s tr c (hcok c rfl)
      have hfree : ({ k₀ with sys := s } : Ksys).LocksFree := h₀.sys
      obtain ⟨fuel, hdo⟩ := hfree.doCall_base htakes hcall
      exact ih.step (.call hc htakes hdo)

end

/-- In every state that is reached the spin locks are free, and a call is balanced if and
only if it does not initialise a barrier that exists. -/
theorem spinLocks_balanced_iff {M : Machine} {k₀ k : Ksys}
    (h₀ : ∀ t, k₀.lock (.thread t) = false) (h : Run M (ksynchroInit k₀) k) :
    k.LocksFree ∧ ∀ c, k.Takes c → (Balanced M k c ↔ ¬ k.Reinits c) := by
  have hfree := h.locksFree (locksFree_ksynchroInit h₀)
  refine ⟨hfree, fun c hc => ⟨fun hbal hre => ?_, fun hno => hfree.balanced hc hno⟩⟩
  obtain ⟨b, hspins⟩ := hfree.spins (M := M) hc hre
  have hset := hbal 0
  rw [hspins] at hset
  exact hset

/-- Two threads on a machine that has made no mutex and no barrier yet. -/
def booted : Ksys where
  sys := { twoThreads with kmem := kmemkernelInit onePage usedMem }
  lock _ := false
  mutexGroot := []
  barrierGroot := []
  threadPid _ := 0
  mutexPid _ := 0
  barrierPid _ := 0

/-- The first object is the first page of the heap. -/
theorem kmalloc_booted (size : Nat) (h : (kmalloc onePage size booted.sys.kmem).map Prod.fst =
    some 4096) : ∃ kmem, kmalloc smallMachine.kernel size booted.sys.kmem = some (4096, kmem) := by
  obtain ⟨⟨x, kmem⟩, heq, hx⟩ := Option.map_eq_some_iff.mp h
  cases hx
  exact ⟨kmem, heq⟩

/-- The first thread makes a barrier of two. -/
theorem run_barrierInit : ∃ k, Run smallMachine (ksynchroInit booted) k ∧
    k.barrierGroot = [4096] ∧
    k.sys.barrier 4096 = { magic := magicBarrier, expected := 2, waiting := 0 } := by
  obtain ⟨kmem, hk⟩ := kmalloc_booted barrierSize (by decide)
  have hinit : ∃ k, doCall smallMachine 0 (.barrierInit none 2) (ksynchroInit booted) =
      .ok (some (.errno .success), k) ∧ k.barrierGroot = [4096] ∧
      k.sys.barrier 4096 = { magic := magicBarrier, expected := 2, waiting := 0 } := by
    have hk' : kmalloc smallMachine.kernel barrierSize (ksynchroInit booted).sys.kmem =
        some (4096, kmem) := hk
    rw [doCall, threadBarrierInit, if_neg (by decide)]
    simp only
    rw [hk']
    exact ⟨_, rfl, rfl, rfl⟩
  obtain ⟨k, hdo, hgroot, hbar⟩ := hinit
  exact ⟨k, Run.init.step (.call (c := .barrierInit none 2) rfl trivial hdo), hgroot, hbar⟩

/-- A thread arrives at the barrier. -/
theorem spinLocks_balanced_iff_wait : ∃ k, Run smallMachine (ksynchroInit booted) k ∧
    k.Takes (.base (.barrierWait (some 4096))) ∧
    Balanced smallMachine k (.base (.barrierWait (some 4096))) := by
  obtain ⟨k, hrun, hgroot, -⟩ := run_barrierInit
  have htakes : k.Takes (.base (.barrierWait (some 4096))) := .inl (by
    change 4096 ∈ k.barrierGroot
    rw [hgroot]
    exact List.mem_singleton_self _)
  exact ⟨k, hrun, htakes, ((spinLocks_balanced_iff (fun _ => rfl) hrun).2 _ htakes).mpr id⟩

/-- The barrier has no waiting thread, and its second initialisation never ends. -/
theorem spinLocks_not_balanced : ∃ k, Run smallMachine (ksynchroInit booted) k ∧
    k.Takes (.barrierInit (some 4096) 3) ∧
    threadBarrierInit smallMachine (some 4096) 3 k = .error (.spins (.barrier 4096)) ∧
    ¬ Balanced smallMachine k (.barrierInit (some 4096) 3) := by
  obtain ⟨k, hrun, hgroot, hbar⟩ := run_barrierInit
  have hfree := hrun.locksFree (locksFree_ksynchroInit fun _ => rfl)
  have hmem : k.Exists (.barrier 4096) := by
    change 4096 ∈ k.barrierGroot
    rw [hgroot]
    exact List.mem_singleton_self _
  have hspins := threadBarrierInit_spins (M := smallMachine) (hfree _ hmem)
    (show 3 ≠ 0 by decide) (congrArg Barrier.magic hbar)
  refine ⟨k, hrun, .inl hmem, hspins, fun hbal => ?_⟩
  have hset := hbal 0
  rw [doCall, hspins] at hset
  exact hset

end Ksys

end Ko6.Kernel
