import Ko6.Kernel.SpinLocks

set_option autoImplicit false

/-!
# Kernel: `thread_mutex_destroy`

The function asks that the mutex is not busy and that the calling thread owns it.  But a
mutex that is not busy has no owner: `thread_mutex_init` and the last
`thread_mutex_unlock` make it `NULL`.  So no thread ever destroys a mutex.
-/

namespace Ko6.Kernel

open Ko6.Lib Ko6.Common

/-! ## Calls that leave the mutexes -/

section
variable {M : Machine} {s s' s₁ : Sys} {es : List Event} {t : Nat}

theorem schedInsert_mutex (h : schedInsert M t s = some s') : s'.mutex = s.mutex := by
  unfold schedInsert at h
  obtain ⟨tid, -, h⟩ := Option.bind_eq_some_iff.mp h
  cases h
  split <;> rfl

theorem threadCreate_mutex {e : Errno} (h : threadCreate M s = some (e, s', es)) :
    s'.mutex = s.mutex := by
  unfold threadCreate at h
  obtain ⟨⟨thread, kmem⟩, -, h⟩ := Option.bind_eq_some_iff.mp h
  simp only at h
  split at h
  · cases h
    rfl
  · obtain ⟨⟨top, umem⟩, -, h⟩ := Option.bind_eq_some_iff.mp h
    obtain ⟨s₂, hinsert, h⟩ := Option.bind_eq_some_iff.mp h
    cases h
    exact (schedInsert_mutex hinsert).trans rfl

theorem threadDestroy_mutex (h : threadDestroy M t s = some (s', es)) : s'.mutex = s.mutex := by
  unfold threadDestroy at h
  split at h
  · exact absurd h (by simp)
  · obtain ⟨umem, -, h⟩ := Option.bind_eq_some_iff.mp h
    obtain ⟨kmem, -, h⟩ := Option.bind_eq_some_iff.mp h
    cases h
    rfl

theorem joinEnd_mutex (h : joinEnd M t s = some (s', es)) : s'.mutex = s.mutex := by
  unfold joinEnd at h
  obtain ⟨⟨s₂, es₂⟩, hdestroy, h⟩ := Option.bind_eq_some_iff.mp h
  cases h
  exact (threadDestroy_mutex hdestroy).trans rfl

theorem threadJoin_mutex {x : Option Nat} {r : Option Errno}
    (h : threadJoin M x s = some (r, s', es)) : s'.mutex = s.mutex := by
  cases x with
  | none =>
    cases h
    rfl
  | some x =>
    unfold threadJoin at h
    simp only at h
    split at h
    · cases h
      rfl
    · obtain ⟨⟨s₂, es₂⟩, hend, h⟩ := Option.bind_eq_some_iff.mp h
      cases h
      exact (joinEnd_mutex hend).trans rfl

theorem threadExit_mutex {v : Nat} : (threadExit v s).1.mutex = s.mutex := by
  unfold threadExit
  simp only
  split <;> rfl

theorem threadWait_mutex {ctx : Context} : (threadWait ctx s).mutex = s.mutex := by
  unfold threadWait
  simp only
  split <;> rfl

theorem barrierRelease_mutex {fuel : Nat} {b : Cell}
    (h : listForeach wcells fuel barrierRelease s b = some s') : s'.mutex = s.mutex := by
  have hbody : ∀ s x, (barrierRelease s x).mutex = s.mutex := fun _ _ => rfl
  exact foreachLoop_keeps hbody _ h

/-- `thread_mutex_lock` writes one mutex, if any, and makes it busy. -/
theorem threadMutexLock_mutex {m : Nat} :
    (threadMutexLock (some m) s).2.1.mutex = s.mutex ∨
      (threadMutexLock (some m) s).2.1.mutex =
        Function.update s.mutex m { busy := 1, owner := some s.threadCurrent } := by
  unfold threadMutexLock
  simp only
  split
  · exact .inl rfl
  split
  · exact .inl (threadWait_mutex.trans rfl)
  · exact .inr rfl

/-- `thread_mutex_unlock` writes one mutex, if any, and leaves no owner of an idle one. -/
theorem threadMutexUnlock_mutex {m : Nat} :
    (threadMutexUnlock (some m) s).2.1.mutex = s.mutex ∨
      ∃ x : Mutex, (x.busy = 0 → x.owner = none) ∧
        (threadMutexUnlock (some m) s).2.1.mutex = Function.update s.mutex m x := by
  unfold threadMutexUnlock
  simp only
  split
  · exact .inl rfl
  rename_i hbusy
  split
  · exact .inl rfl
  have hkeep : (listGetfirst wcells s (.mutex m)).2.mutex = s.mutex := by
    unfold listGetfirst
    split <;> rfl
  cases hfirst : listGetfirst wcells s (.mutex m) with
  | mk waitingItem s₁ =>
    rw [hfirst] at hkeep
    have hs₁ : s₁.mutex = s.mutex := hkeep
    cases waitingItem with
    | some item =>
      refine .inr ⟨{ s.mutex m with owner := some (threadItem item) }, fun h => absurd h hbusy, ?_⟩
      change Function.update s₁.mutex m { s₁.mutex m with owner := some (threadItem item) } = _
      rw [hs₁]
    | none =>
      refine .inr ⟨{ busy := 0, owner := none }, fun _ => rfl, ?_⟩
      change Function.update s₁.mutex m { busy := 0, owner := none } = _
      rw [hs₁]

theorem schedSwitch_mutex (h : schedSwitch M s = some s') : s'.mutex = s.mutex := by
  unfold schedSwitch at h
  obtain ⟨th, -, h⟩ := Option.bind_eq_some_iff.mp h
  cases h
  split <;> rfl

theorem resume_mutex (h : resume M s = some (s', es)) : s'.mutex = s.mutex := by
  unfold resume at h
  simp only at h
  split at h
  case h_5 => exact (joinEnd_mutex h).trans rfl
  all_goals
    cases h
    rfl

end

namespace Ksys

/-! ## The destruction of a mutex -/

/-- `thread_mutex_destroy` of `m` succeeds, takes exactly `m` from `MutexGroot` and frees
it. -/
def DestroysMutex (M : Machine) (k : Ksys) (m : Nat) : Prop :=
  ∃ k', threadMutexDestroy M (some m) k = .ok (.errno .success, k') ∧
    k'.mutexGroot = k.mutexGroot.filter (· ≠ m) ∧ k'.barrierGroot = k.barrierGroot ∧
    kfree M.kernel m k.sys.kmem = some k'.sys.kmem

/-- `thread_mutex_destroy` of `m` returns an error and changes nothing. -/
def RefusesMutex (M : Machine) (k : Ksys) (m : Nat) : Prop :=
  ∃ e, e ≠ .errno .success ∧ threadMutexDestroy M (some m) k = .ok (e, k)

/-- An idle mutex can be destroyed, and no other. -/
def DestroysIdle (M : Machine) (k : Ksys) (m : Nat) : Prop :=
  ((k.sys.mutex m).busy = 0 → DestroysMutex M k m) ∧
  ((k.sys.mutex m).busy ≠ 0 ∨ listIsempty wcells k.sys (.mutex m) = false → RefusesMutex M k m)

/-- A mutex that is not busy has no owner. -/
def Unowned (k : Ksys) : Prop :=
  ∀ m ∈ k.mutexGroot, (k.sys.mutex m).busy = 0 → (k.sys.mutex m).owner = none

section
variable {M : Machine} {k k' : Ksys} {m fuel : Nat} {r : Option Ret}

theorem Unowned.same (h : k.Unowned) (hgroot : ∀ m ∈ k'.mutexGroot, m ∈ k.mutexGroot)
    (hmutex : k'.sys.mutex = k.sys.mutex) : k'.Unowned := by
  intro m hm hidle
  rw [hmutex] at hidle ⊢
  exact h m (hgroot m hm) hidle

/-- Only the fields of `m` change, and it is in order. -/
theorem Unowned.update {x : Mutex} (h : k.Unowned)
    (hgroot : ∀ m' ∈ k'.mutexGroot, m' = m ∨ m' ∈ k.mutexGroot)
    (hmutex : k'.sys.mutex = Function.update k.sys.mutex m x) (hx : x.busy = 0 → x.owner = none) :
    k'.Unowned := by
  intro m' hm hidle
  rw [hmutex] at hidle ⊢
  by_cases hne : m' = m
  · rw [hne, Function.update_self] at hidle ⊢
    exact hx hidle
  · rw [Function.update_of_ne hne] at hidle ⊢
    exact h m' ((hgroot m' hm).resolve_left hne) hidle

theorem of_map_ok {α β : Type} {x : Except Stop α} {g : α → β} {b : β} (h : x.map g = .ok b) :
    ∃ a, x = .ok a ∧ g a = b := by
  cases x with
  | error e => exact absurd h (by simp [Except.map])
  | ok a => exact ⟨a, rfl, Except.ok.inj h⟩

theorem Unowned.base {c : Call} (h : k.Unowned) (hfree : k.LocksFree) (hc : k.Takes (.base c))
    (hcall : doCall M fuel (.base c) k = .ok (r, k')) : k'.Unowned := by
  cases c with
  | create =>
    obtain ⟨⟨e, k₁⟩, hcreate, heq⟩ := of_map_ok hcall
    cases heq
    unfold threadCreate at hcreate
    split at hcreate
    · exact absurd hcreate (by simp)
    all_goals
      rename_i hbase
      cases hcreate
      exact h.same (fun _ hm => hm) (threadCreate_mutex hbase)
  | yield =>
    cases hcall
    exact h.same (fun _ hm => hm) rfl
  | exit v =>
    rw [doCall, threadExit_free hfree.current] at hcall
    cases hcall
    exact h.same (fun _ hm => hm) threadExit_mutex
  | join x =>
    obtain ⟨⟨e, k₁⟩, hjoin, heq⟩ := of_map_ok hcall
    cases heq
    cases x with
    | none =>
      cases hjoin
      exact h
    | some x =>
      cases hbase : Kernel.threadJoin M (some x) k.sys with
      | none =>
        rw [threadJoin_free (hfree (.thread x) trivial) hbase] at hjoin
        exact absurd hjoin (by simp)
      | some res =>
        rw [threadJoin_free (hfree (.thread x) trivial) hbase] at hjoin
        cases hjoin
        exact h.same (fun _ hm => hm) (threadJoin_mutex hbase)
  | lock x =>
    cases x with
    | none =>
      cases hcall
      exact h
    | some m =>
      rw [doCall, threadMutexLock_free (hfree (.mutex m) hc) hfree.current rfl] at hcall
      cases hcall
      rcases threadMutexLock_mutex (s := k.sys) (m := m) with hsame | hnew
      · exact h.same (fun _ hm => hm) hsame
      · exact h.update (fun _ hm => .inr hm) hnew fun hidle => absurd hidle Nat.one_ne_zero
  | unlock x =>
    cases x with
    | none =>
      cases hcall
      exact h
    | some m =>
      rw [doCall, threadMutexUnlock_free (hfree (.mutex m) hc) hfree.current rfl] at hcall
      cases hcall
      rcases threadMutexUnlock_mutex (s := k.sys) (m := m) with hsame | ⟨x, hx, hnew⟩
      · exact h.same (fun _ hm => hm) hsame
      · exact h.update (fun _ hm => .inr hm) hnew hx
  | barrierWait x =>
    cases x with
    | none =>
      cases hcall
      exact h
    | some b =>
      by_cases hmagic : (k.sys.barrier b).magic = magicBarrier
      · have hb := hfree (.barrier b) (hc.resolve_right (not_not.mpr hmagic))
        rw [doCall, threadBarrierWait_free hb hfree.current hmagic rfl] at hcall
        obtain ⟨⟨e, k₁⟩, hwait, heq⟩ := of_map_ok hcall
        cases heq
        split at hwait
        · cases hloop : listForeach wcells fuel barrierRelease (k.sys.modBarrier b fun x =>
              { x with waiting := x.waiting + 1 }) (.barrier b) with
          | none =>
            rw [hloop] at hwait
            exact absurd hwait (by simp)
          | some s₁ =>
            rw [hloop] at hwait
            cases hwait
            exact h.same (fun _ hm => hm) ((barrierRelease_mutex hloop).trans rfl)
        · cases hwait
          exact h.same (fun _ hm => hm) (threadWait_mutex.trans rfl)
      · rw [doCall, threadBarrierWait, if_pos hmagic] at hcall
        cases hcall
        exact h

theorem Unowned.mutexInit {e : Ret × Option Nat} (h : k.Unowned)
    (hcall : threadMutexInit M k = .ok (e, k')) : k'.Unowned := by
  unfold threadMutexInit at hcall
  split at hcall
  · exact absurd hcall (by simp)
  rename_i m kmem _
  simp only at hcall
  split at hcall
  · cases hcall
    exact h.same (fun _ hm => hm) rfl
  · cases hcall
    refine h.update (m := m) (x := { busy := 0, owner := none }) ?_ rfl fun _ => rfl
    intro m' hm'
    rcases List.mem_append.mp hm' with hold | hnew
    · exact .inr hold
    · exact .inl (List.mem_singleton.mp hnew)

theorem Unowned.mutexDestroy {e : Ret} {x : Option Nat} (h : k.Unowned)
    (hcall : threadMutexDestroy M x k = .ok (e, k')) : k'.Unowned := by
  cases x with
  | none =>
    cases hcall
    exact h
  | some m =>
    unfold threadMutexDestroy at hcall
    simp only at hcall
    split at hcall
    · cases hcall
      exact h
    split at hcall
    · cases hcall
      exact h
    split at hcall
    · exact absurd hcall (by simp)
    · cases hcall
      exact h.same (fun _ hm => List.mem_of_mem_filter hm) rfl

theorem Unowned.barrierInit {e : Ret × Option Nat} {x : Option Nat} {count : Nat} (h : k.Unowned)
    (hno : ¬ k.Reinits (.barrierInit x count)) (hcall : threadBarrierInit M x count k = .ok (e, k')) :
    k'.Unowned := by
  unfold threadBarrierInit at hcall
  split at hcall
  · cases hcall
    exact h
  rename_i hcount
  cases x with
  | some b =>
    simp only at hcall
    rw [if_pos fun hmagic => hno ⟨hcount, hmagic⟩] at hcall
    cases hcall
    exact h
  | none =>
    simp only at hcall
    split at hcall
    · exact absurd hcall (by simp)
    split at hcall
    all_goals
      cases hcall
      refine h.same (fun _ hm => hm) ?_
    · rfl
    · change (Kernel.threadBarrierInit _ count _).2.mutex = _
      rw [Kernel.threadBarrierInit, if_neg hcount]
      rfl

theorem Unowned.barrierDestroy {e : Ret} {x : Option Nat} (h : k.Unowned) (hfree : k.LocksFree)
    (hc : k.Takes (.barrierDestroy x)) (hcall : threadBarrierDestroy M x k = .ok (e, k')) :
    k'.Unowned := by
  cases x with
  | none =>
    cases hcall
    exact h
  | some b =>
    unfold threadBarrierDestroy at hcall
    simp only at hcall
    split at hcall
    · cases hcall
      exact h
    rename_i hmagic
    rw [spinLock_bind (hfree _ (hc.resolve_right hmagic))] at hcall
    split at hcall
    · cases hcall
      exact h.same (fun _ hm => hm) rfl
    split at hcall
    · exact absurd hcall (by simp)
    · cases hcall
      exact h.same (fun _ hm => hm) rfl

/-! ## Runs -/

theorem Unowned.step {c : Option SynCall} (h : k.Unowned) (hfree : k.LocksFree)
    (hstep : Step M k c k') : k'.Unowned := by
  cases hstep with
  | switch _ hsw hres =>
    exact h.same (fun _ hm => hm) ((resume_mutex hres).trans (schedSwitch_mutex hsw))
  | @call _ c fuel r _ hc hcall =>
    cases c with
    | base c => exact h.base hfree hc hcall
    | mutexInit =>
      obtain ⟨⟨e, k₁⟩, hinit, heq⟩ := of_map_ok hcall
      cases heq
      exact h.mutexInit hinit
    | mutexDestroy x =>
      obtain ⟨⟨e, k₁⟩, hdestroy, heq⟩ := of_map_ok hcall
      cases heq
      exact h.mutexDestroy hdestroy
    | barrierInit x count =>
      by_cases hre : k.Reinits (.barrierInit x count)
      · obtain ⟨b, hspins⟩ := hfree.spins (M := M) hc hre
        rw [hspins] at hcall
        exact absurd hcall (by simp)
      · obtain ⟨⟨e, k₁⟩, hinit, heq⟩ := of_map_ok hcall
        cases heq
        exact h.barrierInit hre hinit
    | barrierDestroy x =>
      obtain ⟨⟨e, k₁⟩, hdestroy, heq⟩ := of_map_ok hcall
      cases heq
      exact h.barrierDestroy hfree hc hdestroy

theorem Run.unowned {k₀ : Ksys} (h₀ : k₀.LocksFree) (hown : k₀.Unowned) (h : Run M k₀ k) :
    k.Unowned := by
  induction h with
  | init => exact hown
  | step hrun hstep ih => exact ih.step (hrun.locksFree h₀) hstep

/-- What `thread_mutex_destroy` answers to a thread. -/
theorem threadMutexDestroy_refuses (hthread : k.sys.threadCurrent ≠ 0)
    (hown : (k.sys.mutex m).busy = 0 → (k.sys.mutex m).owner = none) :
    threadMutexDestroy M (some m) k =
      .ok (if (k.sys.mutex m).busy = 0 then .errno .eperm else .ebusy, k) := by
  unfold threadMutexDestroy
  by_cases hidle : (k.sys.mutex m).busy = 0
  · simp only [hidle, ne_eq, not_true_eq_false, if_false, if_true, hown hidle, threadCurrent,
      if_neg hthread, reduceCtorEq, not_false_eq_true]
  · simp only [ne_eq, hidle, not_false_eq_true, if_true, if_false]

end

/-- In every state that is reached `thread_mutex_destroy`, called by a thread for a mutex
that exists, returns an error and changes nothing.  It does so rightly if and only if the
mutex is busy: no idle mutex can be destroyed. -/
theorem threadMutexDestroy_iff {M : Machine} {k₀ k : Ksys} {m : Nat}
    (h₀ : ∀ t, k₀.lock (.thread t) = false) (h : Run M (ksynchroInit k₀) k)
    (hm : m ∈ k.mutexGroot) (hthread : k.sys.threadCurrent ≠ 0) :
    RefusesMutex M k m ∧ (DestroysIdle M k m ↔ (k.sys.mutex m).busy ≠ 0) := by
  have hown := h.unowned (locksFree_ksynchroInit h₀) fun m hm => absurd hm List.not_mem_nil
  have hcall := threadMutexDestroy_refuses (M := M) hthread (hown m hm)
  have hrefuses : RefusesMutex M k m := by
    refine ⟨_, ?_, hcall⟩
    split <;> simp
  refine ⟨hrefuses, ?_, ?_⟩
  · rintro ⟨hdestroys, -⟩ hidle
    obtain ⟨k', hsuccess, -⟩ := hdestroys hidle
    rw [hcall, if_pos hidle] at hsuccess
    exact absurd hsuccess (by simp)
  · exact fun hbusy => ⟨fun hidle => absurd hidle hbusy, fun _ => hrefuses⟩

/-- The first thread makes a mutex. -/
theorem run_mutexInit : ∃ k, Run smallMachine (ksynchroInit booted) k ∧
    k.mutexGroot = [4096] ∧ k.sys.mutex 4096 = { busy := 0, owner := none } ∧
    k.sys.threadCurrent = 4096 ∧ (k.sys.thread 4096).context = .user := by
  obtain ⟨kmem, hk⟩ := kmalloc_booted mutexSize (by decide)
  have hinit : ∃ k, doCall smallMachine 0 .mutexInit (ksynchroInit booted) =
      .ok (some (.errno .success), k) ∧ k.mutexGroot = [4096] ∧
      k.sys.mutex 4096 = { busy := 0, owner := none } ∧ k.sys.threadCurrent = 4096 ∧
      (k.sys.thread 4096).context = .user := by
    have hk' : kmalloc smallMachine.kernel mutexSize (ksynchroInit booted).sys.kmem =
        some (4096, kmem) := hk
    rw [doCall, threadMutexInit, hk']
    exact ⟨_, rfl, rfl, rfl, rfl, rfl⟩
  obtain ⟨k, hdo, hfacts⟩ := hinit
  exact ⟨k, Run.init.step (.call (c := .mutexInit) rfl trivial hdo), hfacts⟩

/-- The first thread makes a mutex and locks it. -/
theorem threadMutexDestroy_iff_locked : ∃ k, Run smallMachine (ksynchroInit booted) k ∧
    (k.sys.mutex 4096).busy = 1 ∧ DestroysIdle smallMachine k 4096 := by
  obtain ⟨k, hrun, hgroot, hmutex, hcur, hctx⟩ := run_mutexInit
  have hmem : 4096 ∈ k.mutexGroot := by
    rw [hgroot]
    exact List.mem_singleton_self _
  have hfree := hrun.locksFree (locksFree_ksynchroInit fun _ => rfl)
  have hlock : Kernel.threadMutexLock (some 4096) k.sys = (some .success,
      k.sys.modMutex 4096 fun _ => { busy := 1, owner := some 4096 }, [.lockTaken 4096 4096]) := by
    unfold Kernel.threadMutexLock
    simp only [hmutex, hcur, ne_eq, not_true_eq_false, false_and, if_false]
  have hcall := threadMutexLock_free (hfree (.mutex 4096) hmem) hfree.current hlock
  have hdo : doCall smallMachine 0 (.base (.lock (some 4096))) k = .ok (some (.errno .success),
      k.modSys fun s => s.modMutex 4096 fun _ => { busy := 1, owner := some 4096 }) := by
    rw [doCall, hcall]
    rfl
  have hrun' := hrun.step (.call (c := .base (.lock (some 4096))) (hcur ▸ hctx) hmem hdo)
  have hbusy : ((k.modSys fun s => s.modMutex 4096 fun _ =>
      { busy := 1, owner := some 4096 }).sys.mutex 4096).busy = 1 := by
    simp [Ksys.modSys, Sys.modMutex]
  refine ⟨_, hrun', hbusy, ?_⟩
  refine (threadMutexDestroy_iff (fun _ => rfl) hrun' hmem ?_).2.mpr ?_
  · change k.sys.threadCurrent ≠ 0
    rw [hcur]
    decide
  · rw [hbusy]
    decide

/-- The mutex is idle, and the thread that has made it cannot destroy it. -/
theorem threadMutexDestroy_idle : ∃ k, Run smallMachine (ksynchroInit booted) k ∧
    4096 ∈ k.mutexGroot ∧ (k.sys.mutex 4096).busy = 0 ∧
    threadMutexDestroy smallMachine (some 4096) k = .ok (.errno .eperm, k) ∧
    ¬ DestroysIdle smallMachine k 4096 := by
  obtain ⟨k, hrun, hgroot, hmutex, hcur, -⟩ := run_mutexInit
  have hidle : (k.sys.mutex 4096).busy = 0 := congrArg Mutex.busy hmutex
  have hcall := threadMutexDestroy_refuses (M := smallMachine) (m := 4096)
    (show k.sys.threadCurrent ≠ 0 by rw [hcur]; decide) fun _ => congrArg Mutex.owner hmutex
  rw [if_pos hidle] at hcall
  refine ⟨k, hrun, by rw [hgroot]; exact List.mem_singleton_self _, hidle, hcall, ?_⟩
  rintro ⟨hdestroys, -⟩
  obtain ⟨k', hsuccess, -⟩ := hdestroys hidle
  rw [hcall] at hsuccess
  exact absurd hsuccess (by simp)

end Ksys

end Ko6.Kernel
