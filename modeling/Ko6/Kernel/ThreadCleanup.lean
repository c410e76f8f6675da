import Ko6.Kernel.ThreadSteps

set_option autoImplicit false

/-!
# Kernel: `process_threads_cleanup`

The loop goes over `ThreadTab` and destroys the threads of a process.  Nothing in it
advances the index, so it stays at the first place of the table: it destroys the thread
there, if it is one of the process, and then looks at the empty place for ever.

`thread->pid` is given as a function of the thread, which no function here changes, and
`THREAD_MAX` as a number of its own, so that it can be 0.
-/

namespace Ko6.Kernel

open Ko6.Lib Ko6.Common

/-! ## Model -/

/-- A call that runs for some time: it has returned, it has panicked, or it is about to
test the condition of its loop at `tid`. -/
inductive Progress where
  | returned (s : Sys) (es : List Event)
  | panicked
  | running (tid : Nat) (s : Sys) (es : List Event)

section
variable (M : Machine) (threadMax : Nat) (pidOf : Nat → Int) (pid : Int)

/-- The body of the loop: `tid` as it is afterwards, and the state. -/
def cleanupBody (tid : Nat) (s : Sys) : Option (Nat × Sys × List Event) :=
  match s.threadTab tid with
  | none => some (tid, s, [])
  | some thread =>
    if pidOf thread = pid then do
      let (s, es) ← threadDestroy M thread (s.setState thread .dead)
      some (tid, s, es)
    else some (tid, s, [])

/-- `fuel` turns of the loop. -/
def cleanupLoop : Nat → Nat → Sys → List Event → Progress
  | 0, tid, s, es => .running tid s es
  | fuel + 1, tid, s, es =>
    if tid < threadMax then
      match cleanupBody M pidOf pid tid s with
      | none => .panicked
      | some (tid, s, es') => cleanupLoop fuel tid s (es' ++ es)
    else .returned s es

/-- `process_threads_cleanup`, for `fuel` turns of its loop. -/
def processThreadsCleanup (fuel : Nat) (s : Sys) : Progress :=
  cleanupLoop M threadMax pidOf pid fuel 0 s []

end

/-! ## The clean-up of a process -/

section
variable {M : Machine} {threadMax : Nat} {pidOf : Nat → Int} {pid : Int} {s : Sys}
  {es : List Event} {tid fuel t : Nat}

/-- Thread `t` is in the table and belongs to the process. -/
def OfProcess (threadMax : Nat) (pidOf : Nat → Int) (pid : Int) (s : Sys) (t : Nat) : Prop :=
  (∃ i, i < threadMax ∧ s.threadTab i = some t) ∧ pidOf t = pid

/-- The clean-up from `s` to `s'` destroys exactly the threads of the process, once
each. -/
structure DestroysThreads (threadMax : Nat) (pidOf : Nat → Int) (pid : Int) (s s' : Sys)
    (es : List Event) : Prop where
  freed : ∀ t, OfProcess threadMax pidOf pid s t → es.count (.pageFreed t) = 1 ∧
    es.count (.stackFreed t (s.thread t).ustackB) = 1
  kept : ∀ t, ¬ OfProcess threadMax pidOf pid s t → .pageFreed t ∉ es
  slots : ∀ i, i < threadMax →
    s'.threadTab i = (s.threadTab i).filter fun t => pidOf t ≠ pid
  threads : ∀ t, ¬ OfProcess threadMax pidOf pid s t → s'.thread t = s.thread t

/-- The call returns after some turns of its loop, and the threads of the process are
destroyed then. -/
def CleansUp (M : Machine) (threadMax : Nat) (pidOf : Nat → Int) (pid : Int) (s : Sys) : Prop :=
  ∃ fuel s' es, processThreadsCleanup M threadMax pidOf pid fuel s = .returned s' es ∧
    DestroysThreads threadMax pidOf pid s s' es

/-- The body leaves the index. -/
theorem cleanupBody_tid {tid' : Nat} {s' : Sys}
    (h : cleanupBody M pidOf pid tid s = some (tid', s', es)) : tid' = tid := by
  unfold cleanupBody at h
  split at h
  · cases h
    rfl
  · split at h
    · obtain ⟨⟨s₁, es₁⟩, -, heq⟩ := Option.bind_eq_some_iff.mp h
      cases heq
      rfl
    · cases h
      rfl

/-- The loop does not return from a place of the table. -/
theorem cleanupLoop_ne_returned {s' : Sys} {es' : List Event} (htid : tid < threadMax) :
    cleanupLoop M threadMax pidOf pid fuel tid s es ≠ .returned s' es' := by
  induction fuel generalizing s es with
  | zero => simp [cleanupLoop]
  | succ fuel ih =>
    rw [cleanupLoop, if_pos htid]
    cases hbody : cleanupBody M pidOf pid tid s with
    | none => simp
    | some r =>
      obtain ⟨tid', s₁, es₁⟩ := r
      obtain rfl := cleanupBody_tid hbody
      exact ih

/-- A body that changes nothing is repeated for ever. -/
theorem cleanupLoop_idle (htid : tid < threadMax)
    (hbody : cleanupBody M pidOf pid tid s = some (tid, s, [])) :
    cleanupLoop M threadMax pidOf pid fuel tid s es = .running tid s es := by
  induction fuel with
  | zero => rfl
  | succ fuel ih =>
    rw [cleanupLoop, if_pos htid, hbody]
    exact ih

theorem threadDestroy_spec {s' : Sys} (h : threadDestroy M t s = some (s', es)) :
    s'.threadTab = Function.update s.threadTab (s.thread t).tid none ∧
      es = [.pageFreed t, .slotFreed t (s.thread t).tid, .stackFreed t (s.thread t).ustackB] := by
  unfold threadDestroy at h
  split at h
  · exact absurd h (by simp)
  · obtain ⟨u, -, h⟩ := Option.bind_eq_some_iff.mp h
    obtain ⟨k, -, h⟩ := Option.bind_eq_some_iff.mp h
    cases h
    exact ⟨rfl, rfl⟩

/-- All that the loop ever does is done in its first turn, at the first place of the
table: unless it panics, at most one thread is destroyed, however long it runs. -/
theorem processThreadsCleanup_first (hpos : 0 < threadMax)
    (htid : ∀ t, s.threadTab 0 = some t → (s.thread t).tid = 0) :
    (∀ fuel, processThreadsCleanup M threadMax pidOf pid (fuel + 1) s = .panicked) ∨
    ∃ s' es, cleanupBody M pidOf pid 0 s = some (0, s', es) ∧
      ∀ fuel, processThreadsCleanup M threadMax pidOf pid (fuel + 1) s = .running 0 s' es := by
  cases hbody : cleanupBody M pidOf pid 0 s with
  | none =>
    refine .inl fun fuel => ?_
    rw [processThreadsCleanup, cleanupLoop, if_pos hpos, hbody]
  | some r =>
    obtain ⟨tid, s', es⟩ := r
    obtain rfl := cleanupBody_tid hbody
    refine .inr ⟨s', es, rfl, fun fuel => ?_⟩
    rw [processThreadsCleanup, cleanupLoop, if_pos hpos, hbody]
    change cleanupLoop M threadMax pidOf pid fuel 0 s' (es ++ []) = _
    rw [List.append_nil]
    refine cleanupLoop_idle hpos ?_
    -- after the turn the place is empty, or its thread is one of another process
    unfold cleanupBody at hbody
    split at hbody
    · rename_i hnone
      cases hbody
      unfold cleanupBody
      rw [hnone]
    · rename_i t ht
      split at hbody
      · obtain ⟨⟨s₁, es₁⟩, hdestroy, heq⟩ := Option.bind_eq_some_iff.mp hbody
        cases heq
        have htab := (threadDestroy_spec hdestroy).1
        rw [Sys.setState_self, htid t ht] at htab
        unfold cleanupBody
        rw [htab, Function.update_self]
      · rename_i hpid
        cases hbody
        unfold cleanupBody
        rw [ht]
        exact if_neg hpid

end

/-- `process_threads_cleanup` cleans up only a table without a place. -/
theorem processThreadsCleanup_iff (M : Machine) (threadMax : Nat) (pidOf : Nat → Int) (pid : Int)
    (s : Sys) : CleansUp M threadMax pidOf pid s ↔ threadMax = 0 := by
  constructor
  · rintro ⟨fuel, s', es, hret, -⟩
    by_contra hne
    exact cleanupLoop_ne_returned (Nat.pos_of_ne_zero hne) hret
  · rintro rfl
    refine ⟨1, s, [], rfl, ?_, fun _ _ => List.not_mem_nil, ?_, fun _ _ => rfl⟩
    · rintro t ⟨⟨i, hi, -⟩, -⟩
      exact absurd hi (Nat.not_lt_zero i)
    · intro i hi
      exact absurd hi (Nat.not_lt_zero i)

/-- With `THREAD_MAX` 4 the clean-up of a process without threads goes on for ever. -/
theorem processThreadsCleanup_runs_on :
    (∀ fuel, processThreadsCleanup smallMachine 4 (fun _ => 0) 7 fuel twoThreads =
      .running 0 twoThreads []) ∧
    ¬ CleansUp smallMachine 4 (fun _ => 0) 7 twoThreads := by
  refine ⟨fun fuel => cleanupLoop_idle (by decide) rfl, fun h => ?_⟩
  exact absurd ((processThreadsCleanup_iff _ _ _ _ _).mp h) (by decide)

end Ko6.Kernel
