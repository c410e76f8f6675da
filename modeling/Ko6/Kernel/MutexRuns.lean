import Ko6.Kernel.ThreadSteps

set_option autoImplicit false

/-!
# Kernel: mutexes in every run

The threads of a run lock and unlock mutexes and yield.  `MutexInv` relates the
fields of every mutex, its wait list, the states and saved contexts of the
threads and the events so far.  The point of the relation is the time between
`thread_mutex_unlock` and the return of the call of the thread that becomes the
owner: it is the owner already, it is `READY`, and it is not inside yet.
-/

namespace Ko6.Kernel

open Ko6.Lib Ko6.Common

/-! ## What a run tells about a mutex -/

section
variable (m : Nat)

/-- The threads between a successful return of `thread_mutex_lock` and their
`thread_mutex_unlock`. -/
def inside : List Event → List Nat
  | [] => []
  | e :: tr =>
    match e with
    | .lockTaken t m' => if m' = m then t :: inside tr else inside tr
    | .lockReleased t m' => if m' = m then (inside tr).erase t else inside tr
    | _ => inside tr

/-- The threads that blocked, in order. -/
def blockedSeq : List Event → List Nat
  | [] => []
  | e :: tr =>
    match e with
    | .lockBlocked t m' => if m' = m then blockedSeq tr ++ [t] else blockedSeq tr
    | _ => blockedSeq tr

/-- The threads that were given the mutex by another one, in order. -/
def handedSeq : List Event → List Nat
  | [] => []
  | e :: tr =>
    match e with
    | .lockHanded t m' => if m' = m then handedSeq tr ++ [t] else handedSeq tr
    | _ => handedSeq tr

end

/-- The calls of these runs. -/
def MutexCall : Call → Prop
  | .yield | .lock _ | .unlock _ => True
  | _ => False

/-- The start: one thread runs, the others are ready, no mutex is in use. -/
structure MutexStart (M : Machine) (s : Sys) : Prop extends ThreadsReady M s where
  free : ∀ m, (s.mutex m).busy = 0 ∧ (s.mutex m).owner = none
  empty : ∀ m, Rep wcells s (.mutex m) []

/-- What holds of mutex `m` in a state after the events `tr`. -/
structure MutexSafe (M : Machine) (s : Sys) (tr : List Event) (m : Nat) : Prop where
  busy_iff : (s.mutex m).busy = 1 ↔ (s.mutex m).owner ≠ none
  busy_le : (s.mutex m).busy ≤ 1
  queue : ∃ xs : List Nat, Rep wcells s (.mutex m) (xs.map .thread) ∧ xs.Nodup ∧
    ((s.mutex m).busy = 0 → xs = []) ∧
    (∀ t, t ∈ xs ↔ s.Existing M t ∧ (s.thread t).context = .inLock m ∧
      (s.mutex m).owner ≠ some t) ∧
    (∀ t ∈ xs, (s.thread t).state = .wait) ∧
    blockedSeq m tr = handedSeq m tr ++ xs
  one_inside : ∀ t ∈ inside m tr, inside m tr = [t] ∧ (s.mutex m).owner = some t

/-! ## The invariant -/

/-- The invariant of a run; `q m` is the wait list of mutex `m`. -/
structure MutexInv (M : Machine) (s : Sys) (tr : List Event) (q : Nat → List Nat) : Prop
    extends SchedInv M s where
  contexts : ∀ t, s.Existing M t → (s.thread t).context = .user ∨ (s.thread t).context.Idle ∨
    ∃ m, (s.thread t).context = .inLock m
  rep : ∀ m, Rep wcells s (.mutex m) ((q m).map .thread)
  queued : ∀ m t, t ∈ q m ↔ s.Existing M t ∧ (s.thread t).context = .inLock m ∧
    (s.mutex m).owner ≠ some t
  asleep : ∀ m, ∀ t ∈ q m, (s.thread t).state = .wait
  woken : ∀ m t, s.Existing M t → (s.thread t).context = .inLock m →
    (s.mutex m).owner = some t → (s.thread t).state = .ready
  busy : ∀ m, (s.mutex m).busy = 1 ∧ (∃ t, (s.mutex m).owner = some t ∧ s.Existing M t) ∨
    (s.mutex m).busy = 0 ∧ (s.mutex m).owner = none ∧ q m = []
  inside_eq : ∀ m, inside m tr = match (s.mutex m).owner with
    | some t => if (s.thread t).context = .inLock m then [] else [t]
    | none => []
  fifo : ∀ m, blockedSeq m tr = handedSeq m tr ++ q m

section
variable {M : Machine} {s s' : Sys} {tr : List Event} {q : Nat → List Nat}

theorem mutexInv_start (h : MutexStart M s) : MutexInv M s [] fun _ => [] := by
  have hnolock : ∀ t m, s.Existing M t → (s.thread t).context ≠ .inLock m := by
    intro t m ht he
    have hc := h.context ht
    rw [he] at hc
    simp [Context.Idle] at hc
  refine ⟨h.schedInv, fun t ht => (h.context ht).imp id .inl,
    fun m => by simpa using h.empty m, ?_, by simp, ?_, ?_, ?_, fun m => rfl⟩
  · intro m t
    simp only [List.not_mem_nil, false_iff, not_and]
    exact fun ht he => absurd he (hnolock t m ht)
  · exact fun m t ht he => absurd he (hnolock t m ht)
  · exact fun m => .inr ⟨(h.free m).1, (h.free m).2, rfl⟩
  · intro m
    simp [inside, (h.free m).2]

/-- The running thread is in no wait list and owns what it is inside of. -/
theorem MutexInv.cur_not_mem (h : MutexInv M s tr q)
    (hc : (s.thread s.threadCurrent).context = .user) (m : Nat) : s.threadCurrent ∉ q m := by
  intro hmem
  have hctx := ((h.queued m _).mp hmem).2.1
  rw [hc] at hctx
  exact absurd hctx (by simp)

/-- Only the thread structure of the current thread changes, from the user's code
to a place that is no lock. -/
theorem MutexInv.yield (h : MutexInv M s tr q)
    (hc : (s.thread s.threadCurrent).context = .user) : MutexInv M (threadYield s) tr q := by
  have hself := threadYield_self s
  have hother : ∀ t, t ≠ s.threadCurrent → (threadYield s).thread t = s.thread t :=
    fun _ => threadYield_of_ne
  have hlock : ∀ t m, ((threadYield s).thread t).context = Context.inLock m ↔
      (s.thread t).context = Context.inLock m := by
    intro t m
    by_cases ht : t = s.threadCurrent
    · rw [ht, hself, hc]
      simp
    · rw [hother t ht]
  have hne : ∀ t m, (s.thread t).context = Context.inLock m → t ≠ s.threadCurrent := by
    rintro t m he rfl
    rw [hc] at he
    exact absurd he (by simp)
  refine ⟨h.toSchedInv.yield, ?_, ?_, ?_, ?_, ?_, h.busy, ?_, h.fifo⟩
  · intro t ht
    by_cases htc : t = s.threadCurrent
    · rw [htc, hself]
      exact .inr (.inl (.inr rfl))
    · rw [hother t htc]
      exact h.contexts t ht
  · exact fun m => Sys.rep_congr (h.rep m) rfl rfl
  · intro m t
    rw [hlock]
    exact h.queued m t
  · intro m t ht
    rw [hother t (hne t m ((h.queued m t).mp ht).2.1)]
    exact h.asleep m t ht
  · intro m t ht he ho
    rw [hlock] at he
    rw [hother t (hne t m he)]
    exact h.woken m t ht he ho
  · intro m
    rw [h.inside_eq m]
    change _ = match (s.mutex m).owner with
      | some t => if ((threadYield s).thread t).context = Context.inLock m then [] else [t]
      | none => []
    simp only [hlock]

/-- The lists of the other mutexes after a change of the list of `m`. -/
theorem MutexInv.rep_other {s₁ : Sys} {X : List Cell} {m m' c : Nat} (h : MutexInv M s tr q)
    (ht : Touches wcells X s s₁)
    (hX : ∀ a ∈ X, a = .thread c ∨ a = .mutex m ∨ a ∈ (q m).map Cell.thread)
    (hc : c ∉ q m') (hm : m' ≠ m) : Rep wcells s₁ (.mutex m') ((q m').map .thread) := by
  refine ht.rep (h.rep m') (fun _ _ => trivial) ?_
  rintro a ha d hd rfl
  rcases hX d ha with rfl | rfl | ha
  · simp only [List.mem_cons, List.mem_map, reduceCtorEq, false_or, Cell.thread.injEq,
      exists_eq_right] at hd
    exact hc hd
  · simp [Ne.symm hm] at hd
  · obtain ⟨t, ht', rfl⟩ := List.mem_map.mp ha
    simp only [List.mem_cons, List.mem_map, reduceCtorEq, false_or, Cell.thread.injEq,
      exists_eq_right] at hd
    -- a thread waits in one call
    have h1 := ((h.queued m t).mp ht').2.1
    have h2 := ((h.queued m' t).mp hd).2.1
    rw [h1, Context.inLock.injEq] at h2
    exact hm h2.symm

/-- `thread_mutex_lock` of a free mutex. -/
theorem MutexInv.take {m : Nat} (h : MutexInv M s tr q)
    (hc : (s.thread s.threadCurrent).context = .user) (hfree : (s.mutex m).busy = 0) :
    MutexInv M (s.modMutex m fun _ => { busy := 1, owner := some s.threadCurrent })
      (.lockTaken s.threadCurrent m :: tr) q := by
  obtain ⟨-, hnone, hempty⟩ := (h.busy m).resolve_left fun hb => by omega
  have hself : (s.modMutex m fun _ => { busy := 1, owner := some s.threadCurrent }).mutex m =
      { busy := 1, owner := some s.threadCurrent } := Function.update_self ..
  have hother : ∀ m', m' ≠ m →
      (s.modMutex m fun _ => { busy := 1, owner := some s.threadCurrent }).mutex m' =
        s.mutex m' := fun m' hm => Function.update_of_ne hm ..
  have hnolock : ∀ t, s.Existing M t → (s.thread t).context ≠ .inLock m := by
    intro t ht he
    have hmem := (h.queued m t).mpr ⟨ht, he, by simp [hnone]⟩
    rw [hempty] at hmem
    exact absurd hmem (by simp)
  refine ⟨h.toSchedInv.change rfl rfl rfl fun _ _ => .inl rfl, h.contexts,
    fun m' => Sys.rep_congr (h.rep m') rfl rfl, ?_, h.asleep, ?_, ?_, ?_, ?_⟩
  · intro m' t
    by_cases hm : m' = m
    · subst hm
      rw [hempty]
      simp only [List.not_mem_nil, false_iff, not_and]
      exact fun ht he => absurd he (hnolock t ht)
    · rw [hother m' hm]
      exact h.queued m' t
  · intro m' t ht he ho
    by_cases hm : m' = m
    · subst hm
      exact absurd he (hnolock t ht)
    · rw [hother m' hm] at ho
      exact h.woken m' t ht he ho
  · intro m'
    by_cases hm : m' = m
    · subst hm
      rw [hself]
      exact .inl ⟨rfl, _, rfl, h.existing_cur⟩
    · rw [hother m' hm]
      exact h.busy m'
  · intro m'
    have hold := h.inside_eq m'
    by_cases hm : m' = m
    · subst hm
      rw [hnone] at hold
      rw [hself]
      simp only [inside, if_true, hold]
      rw [show (Sys.modMutex s m' _).thread = s.thread from rfl, hc]
      simp
    · rw [hother m' hm]
      simp only [inside, Ne.symm hm, if_false]
      exact hold
  · intro m'
    exact h.fifo m'

/-- `thread_mutex_lock` of a mutex another thread owns. -/
theorem MutexInv.block {m : Nat} (h : MutexInv M s tr q)
    (hc : (s.thread s.threadCurrent).context = .user)
    (howner : (s.mutex m).owner ≠ some s.threadCurrent) (hbusy : (s.mutex m).busy ≠ 0) :
    MutexInv M
      (threadWait (.inLock m) (listAddlast wcells s (.mutex m) (.thread s.threadCurrent)))
      (.lockBlocked s.threadCurrent m :: tr)
      (Function.update q m (q m ++ [s.threadCurrent])) := by
  have hrun := (h.user _ h.existing_cur hc).2
  have hnew : Cell.thread s.threadCurrent ∉ Cell.mutex m :: (q m).map .thread := by
    simp [h.cur_not_mem hc m]
  have hrep := (h.rep m).addlast trivial hnew
  have htouch := (h.rep m).addlast_touches trivial hnew
  obtain ⟨s₁, hs₁⟩ : ∃ s₁, s₁ = listAddlast wcells s (.mutex m) (.thread s.threadCurrent) :=
    ⟨_, rfl⟩
  rw [← hs₁] at hrep htouch ⊢
  have hrep' : ∀ m', Rep wcells s₁ (.mutex m')
      ((Function.update q m (q m ++ [s.threadCurrent]) m').map .thread) := by
    intro m'
    by_cases hm : m' = m
    · subst hm
      simpa using hrep
    · rw [Function.update_of_ne hm]
      refine h.rep_other htouch (c := s.threadCurrent) (m := m) ?_ (h.cur_not_mem hc m') hm
      intro a ha
      simpa using ha
  -- the thread leaves its code for the wait list
  obtain ⟨s', hs'⟩ : ∃ s', s' = threadWait (.inLock m) s₁ := ⟨_, rfl⟩
  rw [← hs']
  have hsleep : AsleepIn (.inLock m) s s' := hs' ▸ asleepIn_threadWait htouch hrun
  rw [threadWait_of_touches htouch hrun] at hs'
  have hmutex : s'.mutex = s.mutex := by rw [hs']
  have hnext : s'.next = s₁.next := by rw [hs']
  have hprev : s'.prev = s₁.prev := by rw [hs']
  have hex : ∀ t, s'.Existing M t ↔ s.Existing M t := Sys.existing_congr hsleep.threadTab
  have hself := hsleep.self
  have hother := hsleep.other
  refine ⟨hsleep.schedInv h.toSchedInv (by simp) (by simp [Context.Idle]), ?_,
    fun m' => Sys.rep_congr (hrep' m') hnext hprev, ?_, ?_, ?_, ?_, ?_, ?_⟩
  · intro t ht
    by_cases htc : t = s.threadCurrent
    · rw [htc, hself]
      exact .inr (.inr ⟨m, rfl⟩)
    · rw [hother t htc]
      exact h.contexts t ((hex t).mp ht)
  · intro m' t
    rw [hex t, hmutex]
    by_cases htc : t = s.threadCurrent
    · subst htc
      rw [hself]
      by_cases hm : m' = m
      · subst hm
        simp [howner, h.existing_cur]
      · rw [Function.update_of_ne hm]
        simp [h.cur_not_mem hc m', Ne.symm hm]
    · rw [hother t htc, ← h.queued m' t]
      by_cases hm : m' = m
      · subst hm
        simp [htc]
      · rw [Function.update_of_ne hm]
  · intro m' t ht
    by_cases htc : t = s.threadCurrent
    · rw [htc, hself]
    · rw [hother t htc]
      refine h.asleep m' t ?_
      by_cases hm : m' = m
      · subst hm
        simpa [htc] using ht
      · rwa [Function.update_of_ne hm] at ht
  · intro m' t ht he ho
    rw [hmutex] at ho
    by_cases htc : t = s.threadCurrent
    · rw [htc, hself, Context.inLock.injEq] at he
      subst he
      exact absurd (htc ▸ ho) howner
    · rw [hother t htc] at he ⊢
      exact h.woken m' t ((hex t).mp ht) he ho
  · intro m'
    rw [hmutex]
    by_cases hm : m' = m
    · subst hm
      obtain ⟨hb, t, ho, ht⟩ := (h.busy m').resolve_right fun hb => hbusy hb.1
      exact .inl ⟨hb, t, ho, (hex t).mpr ht⟩
    · rw [Function.update_of_ne hm]
      refine (h.busy m').imp_left ?_
      rintro ⟨hb, t, ho, ht⟩
      exact ⟨hb, t, ho, (hex t).mpr ht⟩
  · intro m'
    rw [hmutex]
    have hold := h.inside_eq m'
    simp only [inside]
    rw [hold]
    cases ho : (s.mutex m').owner with
    | none => rfl
    | some t =>
      by_cases htc : t = s.threadCurrent
      · subst htc
        have hm : m ≠ m' := by
          rintro rfl
          exact howner ho
        simp [hself, hc, hm]
      · simp only [hother t htc]
  · intro m'
    simp only [blockedSeq, handedSeq]
    by_cases hm : m' = m
    · subst hm
      rw [if_pos rfl, Function.update_self, h.fifo m', List.append_assoc]
    · rw [if_neg (Ne.symm hm), Function.update_of_ne hm]
      exact h.fifo m'

/-- `thread_mutex_unlock` with a waiting thread, which becomes the owner. -/
theorem MutexInv.handOver {m t : Nat} {rest : List Nat} {s₁ : Sys} (h : MutexInv M s tr q)
    (hc : (s.thread s.threadCurrent).context = .user)
    (howner : (s.mutex m).owner = some s.threadCurrent) (hq : q m = t :: rest)
    (hs₁ : s₁ = listUnlink wcells s (.thread t)) :
    MutexInv M (threadNotify t (s₁.modMutex m fun x => { x with owner := some t }))
      (.lockHanded t m :: .lockReleased s.threadCurrent m :: tr) (Function.update q m rest) := by
  have hrep : Rep wcells s (.mutex m) ([] ++ Cell.thread t :: rest.map .thread) := by
    have := h.rep m
    rwa [hq] at this
  have htouch := hrep.unlink_touches
  rw [← hs₁] at htouch
  have hlinks := Sys.of_touches htouch
  obtain ⟨hex, hctx, -⟩ := (h.queued m t).mp (by simp [hq])
  have htc : t ≠ s.threadCurrent := by
    rintro rfl
    rw [hc] at hctx
    exact absurd hctx (by simp)
  have hnodup : t ∉ rest := by
    have hnd := (h.rep m).nodup
    rw [hq, List.map_cons, List.nodup_cons] at hnd
    intro hmem
    exact hnd.1 (List.mem_map.mpr ⟨t, hmem, rfl⟩)
  have hrep' : ∀ m', Rep wcells s₁ (.mutex m')
      ((Function.update q m rest m').map .thread) := by
    intro m'
    by_cases hm : m' = m
    · subst hm
      rw [Function.update_self, hs₁]
      simpa using hrep.unlink
    · rw [Function.update_of_ne hm]
      refine h.rep_other htouch (c := s.threadCurrent) (m := m) ?_ (h.cur_not_mem hc m') hm
      intro a ha
      rw [hq, List.map_cons]
      simp only [List.nil_append, List.mem_cons] at ha ⊢
      tauto
  -- the woken thread is the only one that changes
  obtain ⟨s', hs'⟩ : ∃ s', s' = threadNotify t (s₁.modMutex m fun x => { x with owner := some t }) :=
    ⟨_, rfl⟩
  have hthread : s'.thread = Function.update s.thread t { s.thread t with state := .ready } := by
    rw [hs', hlinks]
    rfl
  have hmutex : s'.mutex = Function.update s.mutex m { s.mutex m with owner := some t } := by
    rw [hs', hlinks]
    rfl
  have hrest : s'.threadTab = s.threadTab ∧ s'.threadCurrentIdx = s.threadCurrentIdx ∧
      s'.threadCurrent = s.threadCurrent ∧ s'.next = s₁.next ∧ s'.prev = s₁.prev := by
    rw [hs', hlinks]
    exact ⟨rfl, rfl, rfl, rfl, rfl⟩
  rw [← hs']
  obtain ⟨htab, hidx, hcur, hnext, hprev⟩ := hrest
  have hexi : ∀ u, s'.Existing M u ↔ s.Existing M u := Sys.existing_congr htab
  have hself : s'.thread t = { s.thread t with state := .ready } := by
    rw [hthread, Function.update_self]
  have hother : ∀ u, u ≠ t → s'.thread u = s.thread u := by
    intro u hu
    rw [hthread, Function.update_of_ne hu]
  have hcontext : ∀ u, (s'.thread u).context = (s.thread u).context := by
    intro u
    by_cases hu : u = t
    · rw [hu, hself]
    · rw [hother u hu]
  have hmself : s'.mutex m = { s.mutex m with owner := some t } := by
    rw [hmutex, Function.update_self]
  have hmother : ∀ m', m' ≠ m → s'.mutex m' = s.mutex m' := by
    intro m' hm
    rw [hmutex, Function.update_of_ne hm]
  refine ⟨h.toSchedInv.change htab hidx hcur ?_, ?_,
    fun m' => Sys.rep_congr (hrep' m') hnext hprev, ?_, ?_, ?_, ?_, ?_, ?_⟩
  · intro u _
    by_cases hut : u = t
    · refine .inr ?_
      rw [hut, hself]
      simp [hctx]
    · exact .inl (hother u hut)
  · intro u hu
    rw [hcontext]
    exact h.contexts u ((hexi u).mp hu)
  · intro m' u
    rw [hexi, hcontext]
    by_cases hm : m' = m
    · subst hm
      have hold := h.queued m' u
      rw [hq, List.mem_cons, howner] at hold
      rw [Function.update_self, hmself]
      constructor
      · intro hu
        have hut : u ≠ t := fun e => hnodup (e ▸ hu)
        obtain ⟨h1, h2, -⟩ := hold.mp (.inr hu)
        exact ⟨h1, h2, by simpa using Ne.symm hut⟩
      · rintro ⟨h1, h2, h3⟩
        have huc : s.threadCurrent ≠ u := by
          rintro rfl
          rw [hc] at h2
          exact absurd h2 (by simp)
        refine (hold.mpr ⟨h1, h2, by simpa using huc⟩).resolve_left ?_
        rintro rfl
        exact h3 rfl
    · rw [Function.update_of_ne hm, hmother m' hm]
      exact h.queued m' u
  · intro m' u hu
    have hmem : u ∈ q m' ∧ u ≠ t := by
      by_cases hm : m' = m
      · subst hm
        rw [Function.update_self] at hu
        exact ⟨by rw [hq]; exact List.mem_cons_of_mem _ hu, fun e => hnodup (e ▸ hu)⟩
      · rw [Function.update_of_ne hm] at hu
        refine ⟨hu, ?_⟩
        rintro rfl
        have hctx' := ((h.queued m' u).mp hu).2.1
        rw [hctx, Context.inLock.injEq] at hctx'
        exact hm hctx'.symm
    rw [hother u hmem.2]
    exact h.asleep m' u hmem.1
  · intro m' u hu hctx' ho
    by_cases hut : u = t
    · rw [hut, hself]
    · rw [hcontext] at hctx'
      rw [hother u hut]
      by_cases hm : m' = m
      · subst hm
        rw [hmself, Option.some.injEq] at ho
        exact absurd ho.symm hut
      · rw [hmother m' hm] at ho
        exact h.woken m' u ((hexi u).mp hu) hctx' ho
  · intro m'
    by_cases hm : m' = m
    · subst hm
      have hb := (h.busy m').resolve_right fun hb => by simp [howner] at hb
      rw [hmself]
      exact .inl ⟨hb.1, t, rfl, (hexi t).mpr hex⟩
    · rw [hmother m' hm, Function.update_of_ne hm]
      exact (h.busy m').imp (fun ⟨hb, u, ho, hu⟩ => ⟨hb, u, ho, (hexi u).mpr hu⟩) id
  · intro m'
    have hold := h.inside_eq m'
    by_cases hm : m' = m
    · subst hm
      rw [howner] at hold
      simp only [hc, reduceCtorEq, if_false] at hold
      rw [hmself]
      simp [inside, hold, hcontext, hctx]
    · rw [hmother m' hm]
      simp only [inside, Ne.symm hm, if_false, hcontext]
      exact hold
  · intro m'
    simp only [blockedSeq, handedSeq]
    by_cases hm : m' = m
    · subst hm
      rw [if_pos rfl, Function.update_self, h.fifo m', hq, List.append_assoc]
      rfl
    · rw [if_neg (Ne.symm hm), Function.update_of_ne hm]
      exact h.fifo m'

/-- `thread_mutex_unlock` without a waiting thread. -/
theorem MutexInv.release {m : Nat} (h : MutexInv M s tr q)
    (hc : (s.thread s.threadCurrent).context = .user)
    (howner : (s.mutex m).owner = some s.threadCurrent) (hq : q m = []) :
    MutexInv M (s.modMutex m fun _ => { busy := 0, owner := none })
      (.lockReleased s.threadCurrent m :: tr) q := by
  have hself : (s.modMutex m fun _ => { busy := 0, owner := none }).mutex m =
      { busy := 0, owner := none } := Function.update_self ..
  have hother : ∀ m', m' ≠ m →
      (s.modMutex m fun _ => { busy := 0, owner := none }).mutex m' = s.mutex m' :=
    fun m' hm => Function.update_of_ne hm ..
  refine ⟨h.toSchedInv.change rfl rfl rfl fun _ _ => .inl rfl, h.contexts,
    fun m' => Sys.rep_congr (h.rep m') rfl rfl, ?_, h.asleep, ?_, ?_, ?_, fun m' => h.fifo m'⟩
  · intro m' t
    by_cases hm : m' = m
    · subst hm
      rw [hself, hq]
      simp only [List.not_mem_nil, false_iff, not_and]
      intro ht he
      -- the owner was in its own code, so a thread in the call would be waiting
      have hne : s.threadCurrent ≠ t := by
        rintro rfl
        rw [show (Sys.modMutex s m' _).thread = s.thread from rfl, hc] at he
        exact absurd he (by simp)
      have hmem := (h.queued m' t).mpr ⟨ht, he, by simpa [howner] using hne⟩
      rw [hq] at hmem
      exact absurd hmem (by simp)
    · rw [hother m' hm]
      exact h.queued m' t
  · intro m' t ht he ho
    by_cases hm : m' = m
    · subst hm
      rw [hself] at ho
      exact absurd ho (by simp)
    · rw [hother m' hm] at ho
      exact h.woken m' t ht he ho
  · intro m'
    by_cases hm : m' = m
    · subst hm
      rw [hself]
      exact .inr ⟨rfl, rfl, hq⟩
    · rw [hother m' hm]
      exact h.busy m'
  · intro m'
    have hold := h.inside_eq m'
    by_cases hm : m' = m
    · subst hm
      rw [howner] at hold
      simp only [hc, reduceCtorEq, if_false] at hold
      rw [hself]
      simp [inside, hold]
    · rw [hother m' hm]
      simp only [inside, Ne.symm hm, if_false]
      exact hold

/-- A switch and the end of the call of the elected thread. -/
theorem MutexInv.switch {s₁ s' : Sys} {es : List Event} (h : MutexInv M s tr q)
    (hc : (s.thread s.threadCurrent).context ≠ .user) (hsw : schedSwitch M s = some s₁)
    (hres : resume M s₁ = some (s', es)) : MutexInv M s' (es ++ tr) q := by
  obtain ⟨th, t, hth, htab, hready, hend⟩ := switch_spec h.cur hsw hres
  have hex : s.Existing M t := ⟨th, hth, htab⟩
  obtain ⟨rfl, hes⟩ : s' = s.elect th t ∧
      ((∃ m, (s.thread t).context = .inLock m ∧ es = [.lockTaken t m]) ∨
        (∀ m, (s.thread t).context ≠ .inLock m) ∧ es = []) := by
    rcases h.contexts t hex with hctx | (hctx | hctx) | ⟨m, hctx⟩
    · exact absurd hctx (h.no_user hc hex)
    · rw [hctx] at hend
      exact ⟨hend.1, .inr ⟨by simp [hctx], hend.2⟩⟩
    · rw [hctx] at hend
      exact ⟨hend.1, .inr ⟨by simp [hctx], hend.2⟩⟩
    · rw [hctx] at hend
      exact ⟨hend.1, .inl ⟨m, hctx, hend.2⟩⟩
  -- a thread that is ready in a lock is its owner
  have howner : ∀ m, (s.thread t).context = .inLock m → (s.mutex m).owner = some t := by
    intro m hm
    by_contra hne
    have hwait := h.asleep m t ((h.queued m t).mpr ⟨hex, hm, hne⟩)
    rw [hready] at hwait
    exact absurd hwait (by simp)
  refine ⟨h.toSchedInv.elect hc hth htab, ?_, fun m => Sys.rep_congr (h.rep m) rfl rfl, ?_, ?_,
    ?_, h.busy, ?_, ?_⟩
  · intro u hu
    by_cases hut : u = t
    · rw [hut, Sys.elect_self]
      exact .inl rfl
    · rw [Sys.elect_of_ne hut]
      exact h.contexts u hu
  · intro m u
    by_cases hut : u = t
    · subst hut
      rw [Sys.elect_self, h.queued m u]
      constructor
      · rintro ⟨-, hctx, hne⟩
        exact absurd (howner m hctx) hne
      · rintro ⟨-, hctx, -⟩
        exact absurd hctx (by simp)
    · rw [Sys.elect_of_ne hut]
      exact h.queued m u
  · intro m u hu
    have hut : u ≠ t := by
      rintro rfl
      have hwait := h.asleep m u hu
      rw [hready] at hwait
      exact absurd hwait (by simp)
    rw [Sys.elect_of_ne hut]
    exact h.asleep m u hu
  · intro m u hu hctx ho
    by_cases hut : u = t
    · rw [hut, Sys.elect_self] at hctx
      exact absurd hctx (by simp)
    · rw [Sys.elect_of_ne hut] at hctx ⊢
      exact h.woken m u hu hctx ho
  · intro m
    have hold := h.inside_eq m
    change _ = match (s.mutex m).owner with
      | some u => if ((s.elect th t).thread u).context = Context.inLock m then [] else [u]
      | none => []
    have hself : ((s.elect th t).thread t).context = .user := by rw [Sys.elect_self]
    rcases hes with ⟨m', hctx, rfl⟩ | ⟨hno, rfl⟩
    · by_cases hm : m' = m
      · subst hm
        rw [howner m' hctx] at hold ⊢
        simp [inside, hold, hctx, hself]
      · simp only [List.cons_append, List.nil_append, inside, hm, if_false, hold]
        cases ho : (s.mutex m).owner with
        | none => rfl
        | some u =>
          by_cases hut : u = t
          · subst hut
            simp [hself, hctx, hm]
          · simp only [Sys.elect_of_ne hut]
    · rw [List.nil_append, hold]
      cases ho : (s.mutex m).owner with
      | none => rfl
      | some u =>
        by_cases hut : u = t
        · subst hut
          simp [hself, hno m]
        · simp only [Sys.elect_of_ne hut]
  · intro m
    rcases hes with ⟨m', -, rfl⟩ | ⟨-, rfl⟩
    · exact h.fifo m
    · exact h.fifo m

theorem MutexInv.step {s' : Sys} {c : Option Call} {es : List Event} (h : MutexInv M s tr q)
    (hok : ∀ call ∈ c, MutexCall call) (hstep : Step M s c es s') :
    ∃ q', MutexInv M s' (es ++ tr) q' := by
  cases hstep with
  | switch hc hsw hres => exact ⟨q, h.switch hc hsw hres⟩
  | @call _ c r _ hc hcall =>
    have hcok := hok c rfl
    cases c with
    | yield =>
      simp only [doCall, Option.some.injEq, Prod.mk.injEq] at hcall
      obtain ⟨-, rfl, rfl⟩ := hcall
      exact ⟨q, h.yield hc⟩
    | lock m =>
      simp only [doCall, Option.some.injEq] at hcall
      cases m with
      | none =>
        simp only [threadMutexLock, Prod.mk.injEq] at hcall
        obtain ⟨-, rfl, rfl⟩ := hcall
        exact ⟨q, h⟩
      | some m =>
        simp only [threadMutexLock] at hcall
        split_ifs at hcall with h1 h2
        · obtain ⟨-, rfl, rfl⟩ := Prod.mk.injEq .. ▸ hcall
          exact ⟨q, h⟩
        · simp only [Prod.mk.injEq] at hcall
          obtain ⟨-, rfl, rfl⟩ := hcall
          exact ⟨_, h.block hc (fun ho => h1 ⟨h2, ho⟩) h2⟩
        · simp only [Prod.mk.injEq] at hcall
          obtain ⟨-, rfl, rfl⟩ := hcall
          exact ⟨q, h.take hc (not_not.mp h2)⟩
    | unlock m =>
      simp only [doCall, Option.some.injEq, Prod.mk.injEq] at hcall
      obtain ⟨-, hs', hes⟩ := hcall
      subst hs' hes
      cases m with
      | none => exact ⟨q, h⟩
      | some m =>
        simp only [threadMutexUnlock]
        split_ifs with h1 h2
        · exact ⟨q, h⟩
        · exact ⟨q, h⟩
        · have ho := not_not.mp h2
          cases hq : q m with
          | nil =>
            have hrep := h.rep m
            rw [hq] at hrep
            simp only [hrep.getfirst_nil]
            exact ⟨q, h.release hc ho hq⟩
          | cons t rest =>
            have hrep := h.rep m
            rw [hq] at hrep
            simp only [hrep.getfirst_cons]
            exact ⟨_, h.handOver hc ho hq rfl⟩
    | create => exact absurd hcok (by simp [MutexCall])
    | exit v => exact absurd hcok (by simp [MutexCall])
    | join x => exact absurd hcok (by simp [MutexCall])
    | barrierWait b => exact absurd hcok (by simp [MutexCall])

theorem MutexInv.safe (h : MutexInv M s tr q) (m : Nat) : MutexSafe M s tr m := by
  have hnodup : (q m).Nodup := by
    refine List.Nodup.of_map Cell.thread (h.rep m).nodup
  refine ⟨?_, ?_, ⟨q m, h.rep m, hnodup, ?_, h.queued m, h.asleep m, h.fifo m⟩, ?_⟩
  · rcases h.busy m with ⟨hb, t, ho, -⟩ | ⟨hb, ho, -⟩ <;> simp [hb, ho]
  · rcases h.busy m with ⟨hb, -⟩ | ⟨hb, -⟩ <;> omega
  · intro hb
    exact ((h.busy m).resolve_left fun hb' => by omega).2.2
  · intro t ht
    have hin := h.inside_eq m
    cases ho : (s.mutex m).owner with
    | none =>
      rw [ho] at hin
      rw [hin] at ht
      exact absurd ht (by simp)
    | some u =>
      rw [ho] at hin
      by_cases hctx : (s.thread u).context = .inLock m
      · simp only [hctx, if_true] at hin
        rw [hin] at ht
        exact absurd ht (by simp)
      · simp only [hctx, if_false] at hin
        rw [hin, List.mem_singleton] at ht
        subst ht
        exact ⟨hin, rfl⟩

end

/-- In every run of locks, unlocks and yields, every mutex is safe and is handed
over in the order of blocking. -/
theorem mutexRun_safe {M : Machine} {s₀ s : Sys} {tr : List Event} (h₀ : MutexStart M s₀)
    (h : Run M (fun _ _ => MutexCall) s₀ s tr) (m : Nat) : MutexSafe M s tr m := by
  have hinv : ∃ q, MutexInv M s tr q := by
    induction h with
    | init => exact ⟨_, mutexInv_start h₀⟩
    | step _ hok hstep ih =>
      obtain ⟨q, hq⟩ := ih
      exact hq.step hok hstep
  obtain ⟨q, hq⟩ := hinv
  exact hq.safe m

theorem mutexStart_twoThreads : MutexStart smallMachine twoThreads :=
  ⟨threadsReady_twoThreads, fun _ => ⟨rfl, rfl⟩, fun _ => ⟨isRing_nil rfl rfl, fun _ _ => trivial⟩⟩

/-- The first thread takes a mutex and yields, the second one blocks on it and is
given it. -/
theorem mutexRun_safe_twoThreads :
    ∃ s tr, Run smallMachine (fun _ _ => MutexCall) twoThreads s tr ∧
      handedSeq 0 tr = [8192] ∧ MutexSafe smallMachine s tr 0 := by
  have h1 : Run smallMachine (fun _ _ => MutexCall) twoThreads twoThreads [] := .init
  have h2 := h1.step (c := some (.lock (some 0))) (by simp [MutexCall]) (.call rfl rfl)
  have h3 := h2.step (c := some .yield) (by simp [MutexCall]) (.call rfl rfl)
  have h4 := h3.step (c := none) (by simp) (.switch (by decide) rfl rfl)
  have h5 := h4.step (c := some (.lock (some 0))) (by simp [MutexCall]) (.call rfl rfl)
  have h6 := h5.step (c := none) (by simp) (.switch (by decide) rfl rfl)
  have h7 := h6.step (c := some (.unlock (some 0))) (by simp [MutexCall]) (.call rfl rfl)
  exact ⟨_, _, h7, by decide, mutexRun_safe mutexStart_twoThreads h7 0⟩

end Ko6.Kernel
