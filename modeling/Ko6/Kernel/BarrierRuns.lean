import Ko6.Kernel.ThreadSteps

set_option autoImplicit false

/-!
# Kernel: barriers in every run

The threads of a run call `thread_barrier_wait` and yield.  The calls of a
barrier of `n` threads are numbered as they are made, and call `i` belongs to
round `i / n`.  The last call of a round wakes the threads that wait; these may
return from their calls much later, while calls of the next rounds are made
already.  `BarrierInv` keeps the number of the call of every thread in a barrier:
a waiting thread is in the current round, a woken one in a round all of whose
calls have been made.
-/

namespace Ko6.Kernel

open Ko6.Lib Ko6.Common

/-! ## What a run tells about a barrier -/

/-- The number of calls made. -/
def arrivals (b : Nat) : List Event → Nat
  | [] => 0
  | e :: tr =>
    match e with
    | .barrierArrived _ b' => if b' = b then arrivals b tr + 1 else arrivals b tr
    | _ => arrivals b tr

/-- The number of the last call of thread `t`, counted from 0. -/
def lastCall (b t : Nat) : List Event → Option Nat
  | [] => none
  | e :: tr => if e = .barrierArrived t b then some (arrivals b tr) else lastCall b t tr

/-- Whenever a call of round `r` has returned, `n` calls of each round up to `r` had
been made. -/
def RoundsOk (b n : Nat) : List Event → Prop
  | [] => True
  | e :: tr => (∀ t, e = .barrierPassed t b → ∃ i, lastCall b t tr = some i ∧
      (i / n + 1) * n ≤ arrivals b tr) ∧ RoundsOk b n tr

/-- The calls of these runs. -/
def BarrierCall : Call → Prop
  | .yield | .barrierWait _ => True
  | _ => False

/-- Barrier `b` expects `n` threads and none has come. -/
structure Fresh (s : Sys) (b n : Nat) : Prop where
  magic : (s.barrier b).magic = magicBarrier
  expected : (s.barrier b).expected = n
  pos : 0 < n
  waiting : (s.barrier b).waiting = 0
  empty : Rep wcells s (.barrier b) []

/-- `thread_barrier_init` makes a barrier of any number of threads but 0. -/
theorem threadBarrierInit_fresh {s : Sys} {b n : Nat} (hn : n ≠ 0) :
    (threadBarrierInit b n s).1 = .success ∧ Fresh (threadBarrierInit b n s).2 b n := by
  rw [threadBarrierInit, if_neg hn]
  obtain ⟨s₁, hs₁⟩ : ∃ s₁, s₁ = s.modBarrier b fun _ =>
    { magic := magicBarrier, expected := n, waiting := 0 } := ⟨_, rfl⟩
  have htouch : Touches wcells [.barrier b] s₁ (listInit wcells s₁ (.barrier b)) := init_touches
  have hbar : (listInit wcells s₁ (.barrier b)).barrier b =
      { magic := magicBarrier, expected := n, waiting := 0 } := by
    rw [Sys.of_touches htouch, hs₁]
    exact Function.update_self ..
  simp only [← hs₁]
  refine ⟨trivial, ?_, ?_, Nat.pos_of_ne_zero hn, ?_, rep_init trivial⟩
  all_goals rw [hbar]

/-- The start: one thread runs, the others are ready, and the valid barriers are as
`thread_barrier_init` leaves them. -/
structure BarrierStart (M : Machine) (s : Sys) : Prop extends ThreadsReady M s where
  init : ∀ b, (s.barrier b).magic = magicBarrier → Fresh s b (s.barrier b).expected

/-- What holds of barrier `b`, which expects `n` threads, in a state after the
events `tr`. -/
structure BarrierSafe (M : Machine) (s : Sys) (tr : List Event) (b n : Nat) : Prop where
  expected : (s.barrier b).expected = n
  queue : ∃ xs : List Nat, Rep wcells s (.barrier b) (xs.map .thread) ∧ xs.Nodup ∧
    (s.barrier b).waiting = xs.length ∧ xs.length < n ∧
    ∀ t, t ∈ xs ↔ s.Existing M t ∧ (s.thread t).context = .inBarrier b ∧
      (s.thread t).state = .wait
  rounds : RoundsOk b n tr
  last : (s.thread s.threadCurrent).context = .user → (s.barrier b).waiting + 1 = n →
    ∀ xs : List Nat, Rep wcells s (.barrier b) (xs.map .thread) →
    ∃ s' es, doCall M (.barrierWait (some b)) s = some (some .success, s', es) ∧
      xs.length = n - 1 ∧ (s'.barrier b).waiting = 0 ∧ Rep wcells s' (.barrier b) [] ∧
      (∀ t ∈ xs, (s'.thread t).state = .ready) ∧ ∀ t, t ∉ xs → s'.thread t = s.thread t

/-! ## The loop that wakes the threads -/

/-- The threads `ts` woken. -/
def wake (thread : Nat → Thread) (ts : List Nat) : Nat → Thread := fun t =>
  if t ∈ ts then { thread t with state := .ready } else thread t

theorem wake_append (thread : Nat → Thread) (ts us : List Nat) :
    wake (wake thread ts) us = wake thread (ts ++ us) := by
  funext t
  simp only [wake, List.mem_append]
  by_cases h1 : t ∈ ts <;> by_cases h2 : t ∈ us <;> simp [h1, h2]

theorem wake_context (thread : Nat → Thread) (ts : List Nat) (t : Nat) :
    (wake thread ts t).context = (thread t).context := by
  rw [wake]
  split <;> rfl

section
variable {M : Machine} {s s₁ s' : Sys} {tr : List Event} {q : Nat → List Nat} {b n : Nat}
  {spec : Nat → BitVec 32 × Nat}

/-- The loop empties the list and wakes its threads; other lists stay as they
are. -/
theorem barrier_foreach {xs : List Nat} {fuel : Nat}
    (h : Rep wcells s (.barrier b) (xs.map .thread)) (hfuel : xs.length < fuel) :
    ∃ s', listForeach wcells fuel barrierRelease s (.barrier b) = some s' ∧
      Rep wcells s' (.barrier b) [] ∧
      s' = { s with next := s'.next, prev := s'.prev, thread := wake s.thread xs } ∧
      ∀ r ys, Rep wcells s r ys →
        (∀ c ∈ r :: ys, c ∉ Cell.barrier b :: xs.map Cell.thread) → Rep wcells s' r ys := by
  have hspec := listForeach_spec barrierRelease
    (I := fun kept todo s₁ => kept = [] ∧ ∃ done rest : List Nat, xs = done ++ rest ∧
      todo = rest.map .thread ∧
      s₁ = { s with next := s₁.next, prev := s₁.prev, thread := wake s.thread done } ∧
      ∀ r ys, Rep wcells s r ys →
        (∀ c ∈ r :: ys, c ∉ Cell.barrier b :: xs.map Cell.thread) → Rep wcells s₁ r ys)
    h (by simpa using hfuel) ⟨rfl, [], xs, rfl, rfl, ?_, fun _ _ hr _ => hr⟩ ?_
  · obtain ⟨s', kept, hloop, hrep, rfl, done, rest, hxs, hrest, hs', hframe⟩ := hspec
    obtain rfl : rest = [] := by simpa using hrest.symm
    rw [List.append_nil] at hxs
    subst hxs
    exact ⟨s', hloop, hrep, hs', hframe⟩
  · have hnone : wake s.thread [] = s.thread := by
      funext t
      simp [wake]
    rw [hnone]
  · rintro kept x todo s₁ hrep ⟨rfl, done, rest, hxs, htodo, hs₁, hframe⟩
    cases rest with
    | nil => simp at htodo
    | cons t rest =>
      rw [List.map_cons, List.cons.injEq] at htodo
      obtain ⟨rfl, rfl⟩ := htodo
      have hunlink := hrep.unlink
      have htouch := hrep.unlink_touches
      have hlinks := Sys.of_touches htouch
      refine ⟨[], Sys.rep_congr hunlink rfl rfl, rfl, done ++ [t], rest, ?_, rfl, ?_, ?_⟩
      · rw [hxs, List.append_assoc]
        rfl
      · have hstep : wake s.thread (done ++ [t]) =
            Function.update (wake s.thread done) t
              { wake s.thread done t with state := .ready } := by
          rw [← wake_append]
          funext u
          by_cases hu : u = t
          · subst hu
            simp [wake]
          · simp [wake, hu]
        rw [barrierRelease, threadNotify, threadItem, hlinks, hs₁, hstep]
        rfl
      · intro r ys hr hdisj
        have hold := hframe r ys hr hdisj
        refine Sys.rep_congr (htouch.rep hold (fun _ _ => trivial) ?_) rfl rfl
        rintro a ha c hc rfl
        refine hdisj c hc ?_
        rw [hxs]
        simp only [List.nil_append, List.mem_cons, List.map_append, List.map_cons,
          List.mem_append] at ha ⊢
        tauto

/-- The last arrival of a round returns at once and wakes the others. -/
theorem barrierWait_last {xs : List Nat} (hvalid : (s.barrier b).magic = magicBarrier)
    (hlast : (s.barrier b).waiting + 1 = (s.barrier b).expected)
    (hrep : Rep wcells s (.barrier b) (xs.map .thread)) (hlen : xs.length = (s.barrier b).waiting) :
    ∃ s', threadBarrierWait (some b) s = some (some .success, s',
        [.barrierPassed s.threadCurrent b, .barrierArrived s.threadCurrent b]) ∧
      Rep wcells s' (.barrier b) [] ∧
      s' = { s with
        next := s'.next, prev := s'.prev, thread := wake s.thread xs,
        barrier := Function.update s.barrier b { s.barrier b with waiting := 0 } } ∧
      ∀ r ys, Rep wcells s r ys →
        (∀ c ∈ r :: ys, c ∉ Cell.barrier b :: xs.map Cell.thread) → Rep wcells s' r ys := by
  obtain ⟨s₁, hs₁⟩ : ∃ s₁, s₁ = s.modBarrier b fun x => { x with waiting := x.waiting + 1 } :=
    ⟨_, rfl⟩
  have hbar : s₁.barrier b = { s.barrier b with waiting := (s.barrier b).waiting + 1 } := by
    rw [hs₁]
    exact Function.update_self ..
  have hrep₁ : Rep wcells s₁ (.barrier b) (xs.map .thread) := by
    rw [hs₁]
    exact Sys.rep_congr hrep rfl rfl
  have hwait : (s₁.barrier b).waiting = (s.barrier b).waiting + 1 := by rw [hbar]
  have hfull : (s₁.barrier b).waiting = (s₁.barrier b).expected := by
    rw [hbar]
    exact hlast
  have hfuel : xs.length < (s₁.barrier b).waiting + 1 := by omega
  obtain ⟨s₂, hloop, hrep₂, hs₂, hframe⟩ := barrier_foreach hrep₁ hfuel
  refine ⟨s₂.modBarrier b fun x => { x with waiting := 0 }, ?_, Sys.rep_congr hrep₂ rfl rfl, ?_, ?_⟩
  · simp only [threadBarrierWait, hvalid, ne_eq, not_true_eq_false, if_false, ← hs₁]
    rw [if_pos hfull, hloop]
    rfl
  · rw [hs₂, hs₁]
    simp only [Sys.modBarrier, Function.update_self, Function.update_idem]
  · intro r ys hr hdisj
    refine Sys.rep_congr (hframe r ys ?_ hdisj) rfl rfl
    rw [hs₁]
    exact Sys.rep_congr hr rfl rfl

/-! ## The invariant -/

/-- The invariant of a run; `q b` is the wait list of barrier `b`, and `spec b` its
magic number and the number of threads it expects. -/
structure BarrierInv (M : Machine) (spec : Nat → BitVec 32 × Nat) (s : Sys) (tr : List Event)
    (q : Nat → List Nat) : Prop extends SchedInv M s where
  fixed : ∀ b, ((s.barrier b).magic, (s.barrier b).expected) = spec b
  contexts : ∀ t, s.Existing M t → (s.thread t).context = .user ∨ (s.thread t).context.Idle ∨
    ∃ b, (s.thread t).context = .inBarrier b ∧ (s.barrier b).magic = magicBarrier
  rep : ∀ b, (s.barrier b).magic = magicBarrier →
    Rep wcells s (.barrier b) ((q b).map .thread)
  queued : ∀ b, (s.barrier b).magic = magicBarrier → ∀ t, t ∈ q b ↔ s.Existing M t ∧
    (s.thread t).context = .inBarrier b ∧ (s.thread t).state = .wait
  count : ∀ b, (s.barrier b).magic = magicBarrier → (s.barrier b).waiting = (q b).length ∧
    (q b).length < (s.barrier b).expected ∧ arrivals b tr % (s.barrier b).expected = (q b).length
  current : ∀ b, (s.barrier b).magic = magicBarrier → ∀ t ∈ q b, ∃ i, lastCall b t tr = some i ∧
    i / (s.barrier b).expected = arrivals b tr / (s.barrier b).expected
  woken : ∀ b, (s.barrier b).magic = magicBarrier → ∀ t, s.Existing M t →
    (s.thread t).context = .inBarrier b → (s.thread t).state ≠ .wait →
    ∃ i, lastCall b t tr = some i ∧
      (i / (s.barrier b).expected + 1) * (s.barrier b).expected ≤ arrivals b tr
  rounds : ∀ b, (s.barrier b).magic = magicBarrier → RoundsOk b (s.barrier b).expected tr

theorem barrierInv_start (h : BarrierStart M s) :
    BarrierInv M (fun b => ((s.barrier b).magic, (s.barrier b).expected)) s [] fun _ => [] := by
  have hnobar : ∀ t b, s.Existing M t → (s.thread t).context ≠ .inBarrier b := by
    intro t b ht he
    have hc := h.context ht
    rw [he] at hc
    simp [Context.Idle] at hc
  refine ⟨h.schedInv, fun _ => rfl, fun t ht => (h.context ht).imp id .inl, ?_, ?_, ?_, by simp, ?_,
    fun _ _ => trivial⟩
  · intro b hb
    simpa using (h.init b hb).empty
  · intro b _ t
    simp only [List.not_mem_nil, false_iff, not_and]
    exact fun ht he => absurd he (hnobar t b ht)
  · intro b hb
    have hfresh := h.init b hb
    exact ⟨hfresh.waiting, hfresh.pos, by simp [arrivals]⟩
  · exact fun b _ t ht he => absurd he (hnobar t b ht)

theorem BarrierInv.cur_not_mem (h : BarrierInv M spec s tr q)
    (hc : (s.thread s.threadCurrent).context = .user) (hb : (s.barrier b).magic = magicBarrier) :
    s.threadCurrent ∉ q b := by
  intro hmem
  have hctx := ((h.queued b hb _).mp hmem).2.1
  rw [hc] at hctx
  exact absurd hctx (by simp)

/-- A thread waits at one barrier. -/
theorem BarrierInv.list_disjoint {b' : Nat} (h : BarrierInv M spec s tr q)
    (hb : (s.barrier b).magic = magicBarrier) (hb' : (s.barrier b').magic = magicBarrier)
    (hne : b' ≠ b) : ∀ c ∈ Cell.barrier b' :: (q b').map .thread,
      c ∉ Cell.barrier b :: (q b).map Cell.thread := by
  intro c hc hmem
  simp only [List.mem_cons, List.mem_map] at hc hmem
  rcases hc with rfl | ⟨t, ht, rfl⟩
  · simp [hne] at hmem
  · simp only [reduceCtorEq, Cell.thread.injEq, exists_eq_right, false_or] at hmem
    have h1 := ((h.queued b' hb' t).mp ht).2.1
    have h2 := ((h.queued b hb t).mp hmem).2.1
    rw [h1, Context.inBarrier.injEq] at h2
    exact hne h2

/-- Counting the threads that wait leaves the other fields of every barrier. -/
theorem fixed_of_waiting {n : Nat} (hbarrier : s'.barrier =
    Function.update s.barrier b { s.barrier b with waiting := n }) (b' : Nat) :
    (s'.barrier b').magic = (s.barrier b').magic ∧
      (s'.barrier b').expected = (s.barrier b').expected := by
  rw [hbarrier]
  by_cases hne : b' = b
  · rw [hne, Function.update_self]
    exact ⟨rfl, rfl⟩
  · rw [Function.update_of_ne hne]
    exact ⟨rfl, rfl⟩

theorem BarrierInv.yield (h : BarrierInv M spec s tr q)
    (hc : (s.thread s.threadCurrent).context = .user) : BarrierInv M spec (threadYield s) tr q := by
  refine ⟨h.toSchedInv.yield, h.fixed, ?_, fun b hb => Sys.rep_congr (h.rep b hb) rfl rfl, ?_, h.count,
    h.current, ?_, h.rounds⟩
  · intro t ht
    by_cases htc : t = s.threadCurrent
    · rw [htc, threadYield_self]
      exact .inr (.inl (.inr rfl))
    · rw [threadYield_of_ne htc]
      exact h.contexts t ht
  · intro b hb t
    by_cases htc : t = s.threadCurrent
    · subst htc
      rw [threadYield_self]
      simp [h.cur_not_mem hc hb]
    · rw [threadYield_of_ne htc]
      exact h.queued b hb t
  · intro b hb t ht he hs
    by_cases htc : t = s.threadCurrent
    · rw [htc, threadYield_self] at he
      exact absurd he (by simp)
    · rw [threadYield_of_ne htc] at he hs
      exact h.woken b hb t ht he hs

/-! ### Counting -/

theorem lastCall_arrived_self (t : Nat) :
    lastCall b t (.barrierArrived t b :: tr) = some (arrivals b tr) := by
  simp [lastCall]

theorem lastCall_arrived_ne {t c b' : Nat} (h : t ≠ c ∨ b' ≠ b) :
    lastCall b t (.barrierArrived c b' :: tr) = lastCall b t tr := by
  rw [lastCall, if_neg]
  rintro he
  rw [Event.barrierArrived.injEq] at he
  rcases h with h | h
  · exact h he.1.symm
  · exact h he.2

theorem lastCall_passed {t c b' : Nat} :
    lastCall b t (.barrierPassed c b' :: tr) = lastCall b t tr := by
  rw [lastCall, if_neg (by simp)]

theorem arrivals_arrived_self (c : Nat) :
    arrivals b (.barrierArrived c b :: tr) = arrivals b tr + 1 := by
  simp [arrivals]

theorem arrivals_arrived_ne {c b' : Nat} (h : b' ≠ b) :
    arrivals b (.barrierArrived c b' :: tr) = arrivals b tr := by
  simp [arrivals, h]

theorem arrivals_passed {c b' : Nat} :
    arrivals b (.barrierPassed c b' :: tr) = arrivals b tr := by
  simp [arrivals]

theorem roundsOk_arrived {c b' : Nat} (h : RoundsOk b n tr) :
    RoundsOk b n (.barrierArrived c b' :: tr) :=
  ⟨fun _ he => absurd he (by simp), h⟩

/-- A round of `n` calls ends with call `a` when `a % n + 1 = n`. -/
theorem round_last {a : Nat} (h : a % n + 1 = n) : a + 1 = (a / n + 1) * n := by
  have hdiv := Nat.div_add_mod a n
  rw [Nat.add_mul, Nat.one_mul, Nat.mul_comm]
  omega

theorem round_next {a : Nat} (h : a % n + 1 < n) :
    (a + 1) / n = a / n ∧ (a + 1) % n = a % n + 1 := by
  have hdiv := Nat.div_add_mod a n
  have hsplit : a + 1 = (a % n + 1) + n * (a / n) := by omega
  constructor
  · rw [hsplit, Nat.add_mul_div_left _ _ (by omega), Nat.div_eq_of_lt h, Nat.zero_add]
  · rw [hsplit, Nat.add_mul_mod_self_left, Nat.mod_eq_of_lt h]

/-! ### Calls -/

/-- A call that is not the last of its round. -/
theorem BarrierInv.block (h : BarrierInv M spec s tr q)
    (hc : (s.thread s.threadCurrent).context = .user) (hb : (s.barrier b).magic = magicBarrier)
    (hmore : (s.barrier b).waiting + 1 ≠ (s.barrier b).expected)
    (hs₁ : s₁ = listAddlast wcells (s.modBarrier b fun x => { x with waiting := x.waiting + 1 })
      (.barrier b) (.thread s.threadCurrent)) :
    BarrierInv M spec (threadWait (.inBarrier b) s₁) (.barrierArrived s.threadCurrent b :: tr)
      (Function.update q b (q b ++ [s.threadCurrent])) := by
  have hrun := (h.user _ h.existing_cur hc).2
  obtain ⟨s₂, hs₂⟩ : ∃ s₂, s₂ = s.modBarrier b fun x => { x with waiting := x.waiting + 1 } :=
    ⟨_, rfl⟩
  rw [← hs₂] at hs₁
  have hrep₂ : ∀ b', (s.barrier b').magic = magicBarrier →
      Rep wcells s₂ (.barrier b') ((q b').map .thread) := by
    intro b' hb'
    rw [hs₂]
    exact Sys.rep_congr (h.rep b' hb') rfl rfl
  have hnew : Cell.thread s.threadCurrent ∉ Cell.barrier b :: (q b).map .thread := by
    simp [h.cur_not_mem hc hb]
  have hrep := (hrep₂ b hb).addlast trivial hnew
  have htouch := (hrep₂ b hb).addlast_touches trivial hnew
  rw [← hs₁] at hrep htouch
  have hrun₂ : (s₂.thread s₂.threadCurrent).state = .running := by
    rw [hs₂]
    exact hrun
  have hcount := h.count b hb
  obtain ⟨s', hs'⟩ : ∃ s', s' = threadWait (.inBarrier b) s₁ := ⟨_, rfl⟩
  rw [← hs']
  have hsleep₂ : AsleepIn (.inBarrier b) s₂ s' := hs' ▸ asleepIn_threadWait htouch hrun₂
  have hsleep : AsleepIn (.inBarrier b) s s' := hsleep₂.of_barrier (by rw [hs₂]; rfl)
  rw [threadWait_of_touches htouch hrun₂] at hs'
  have hbarrier : s'.barrier = Function.update s.barrier b
      { s.barrier b with waiting := (s.barrier b).waiting + 1 } := by
    rw [hs', hs₂]
    rfl
  have hnext : s'.next = s₁.next := by rw [hs']
  have hprev : s'.prev = s₁.prev := by rw [hs']
  have hexi : ∀ t, s'.Existing M t ↔ s.Existing M t := Sys.existing_congr hsleep.threadTab
  have hself := hsleep.self
  have hother := hsleep.other
  have hbself : s'.barrier b = { s.barrier b with waiting := (s.barrier b).waiting + 1 } := by
    rw [hbarrier, Function.update_self]
  have hbother : ∀ b', b' ≠ b → s'.barrier b' = s.barrier b' := by
    intro b' hne
    rw [hbarrier, Function.update_of_ne hne]
  have hvalid := fun b' => (fixed_of_waiting hbarrier b').1
  have hexpected := fun b' => (fixed_of_waiting hbarrier b').2
  -- the call stays in the round
  obtain ⟨hdiv, hmod⟩ := round_next (a := arrivals b tr) (n := (s.barrier b).expected) (by omega)
  refine ⟨hsleep.schedInv h.toSchedInv (by simp) (by simp [Context.Idle]), fun b' => ?_, ?_, ?_,
    ?_, ?_, ?_, ?_, ?_⟩
  · rw [hvalid, hexpected]
    exact h.fixed b'
  · intro t ht
    simp only [hvalid]
    by_cases htc : t = s.threadCurrent
    · rw [htc, hself]
      exact .inr (.inr ⟨b, rfl, hb⟩)
    · rw [hother t htc]
      exact h.contexts t ((hexi t).mp ht)
  · intro b' hb'
    rw [hvalid] at hb'
    refine Sys.rep_congr ?_ hnext hprev
    by_cases hne : b' = b
    · subst hne
      simpa using hrep
    · rw [Function.update_of_ne hne]
      refine htouch.rep (hrep₂ b' hb') (fun _ _ => trivial) ?_
      rintro a ha d hd rfl
      rw [List.mem_cons] at ha
      rcases ha with rfl | ha
      · have hcur := h.cur_not_mem hc hb'
        simp [hcur] at hd
      · exact h.list_disjoint hb hb' hne d hd ha
  · intro b' hb' t
    rw [hvalid] at hb'
    rw [hexi t]
    by_cases htc : t = s.threadCurrent
    · subst htc
      rw [hself]
      by_cases hne : b' = b
      · subst hne
        simp [h.existing_cur]
      · rw [Function.update_of_ne hne]
        simp [h.cur_not_mem hc hb', Ne.symm hne]
    · rw [hother t htc, ← h.queued b' hb' t]
      by_cases hne : b' = b
      · subst hne
        simp [htc]
      · rw [Function.update_of_ne hne]
  · intro b' hb'
    rw [hvalid] at hb'
    rw [hexpected]
    by_cases hne : b' = b
    · subst hne
      rw [hbself, Function.update_self, arrivals_arrived_self, List.length_append,
        List.length_singleton, hmod]
      exact ⟨by simp only; omega, by omega, by omega⟩
    · rw [hbother b' hne, Function.update_of_ne hne, arrivals_arrived_ne (Ne.symm hne)]
      exact h.count b' hb'
  · intro b' hb' t ht
    rw [hvalid] at hb'
    rw [hexpected]
    by_cases hne : b' = b
    · subst hne
      rw [arrivals_arrived_self, hdiv]
      rw [Function.update_self, List.mem_append, List.mem_singleton] at ht
      by_cases htc : t = s.threadCurrent
      · rw [htc, lastCall_arrived_self]
        exact ⟨_, rfl, rfl⟩
      · rw [lastCall_arrived_ne (.inl htc)]
        exact h.current b' hb' t (ht.resolve_right htc)
    · rw [Function.update_of_ne hne] at ht
      rw [arrivals_arrived_ne (Ne.symm hne), lastCall_arrived_ne (.inr (Ne.symm hne))]
      exact h.current b' hb' t ht
  · intro b' hb' t ht hctx hst
    rw [hvalid] at hb'
    rw [hexpected]
    have htc : t ≠ s.threadCurrent := by
      rintro rfl
      rw [hself] at hst
      exact hst rfl
    rw [hother t htc] at hctx hst
    obtain ⟨i, hi, hle⟩ := h.woken b' hb' t ((hexi t).mp ht) hctx hst
    refine ⟨i, by rw [lastCall_arrived_ne (.inl htc), hi], hle.trans ?_⟩
    by_cases hne : b' = b
    · subst hne
      rw [arrivals_arrived_self]
      omega
    · rw [arrivals_arrived_ne (Ne.symm hne)]
  · intro b' hb'
    rw [hvalid] at hb'
    rw [hexpected]
    exact roundsOk_arrived (h.rounds b' hb')

/-- The last call of a round. -/
theorem BarrierInv.release (h : BarrierInv M spec s tr q)
    (hc : (s.thread s.threadCurrent).context = .user) (hb : (s.barrier b).magic = magicBarrier)
    (hlast : (s.barrier b).waiting + 1 = (s.barrier b).expected)
    (hs' : s' = { s with
      next := s'.next, prev := s'.prev, thread := wake s.thread (q b),
      barrier := Function.update s.barrier b { s.barrier b with waiting := 0 } })
    (hrep : Rep wcells s' (.barrier b) [])
    (hframe : ∀ r ys, Rep wcells s r ys →
      (∀ c ∈ r :: ys, c ∉ Cell.barrier b :: (q b).map Cell.thread) → Rep wcells s' r ys) :
    BarrierInv M spec s' (.barrierPassed s.threadCurrent b :: .barrierArrived s.threadCurrent b :: tr)
      (Function.update q b []) := by
  have hthread : s'.thread = wake s.thread (q b) := by rw [hs']
  have hbarrier : s'.barrier =
      Function.update s.barrier b { s.barrier b with waiting := 0 } := by rw [hs']
  have hrest : s'.threadTab = s.threadTab ∧ s'.threadCurrentIdx = s.threadCurrentIdx ∧
      s'.threadCurrent = s.threadCurrent := by
    rw [hs']
    exact ⟨rfl, rfl, rfl⟩
  obtain ⟨htab, hidx, hcur⟩ := hrest
  have hexi : ∀ t, s'.Existing M t ↔ s.Existing M t := Sys.existing_congr htab
  have hctx : ∀ t, (s'.thread t).context = (s.thread t).context := by
    intro t
    rw [hthread, wake_context]
  have hwoken : ∀ t ∈ q b, (s'.thread t).state = .ready := by
    intro t ht
    rw [hthread, wake, if_pos ht]
  have hother : ∀ t, t ∉ q b → s'.thread t = s.thread t := by
    intro t ht
    rw [hthread, wake, if_neg ht]
  have hbself : s'.barrier b = { s.barrier b with waiting := 0 } := by
    rw [hbarrier, Function.update_self]
  have hbother : ∀ b', b' ≠ b → s'.barrier b' = s.barrier b' := by
    intro b' hne
    rw [hbarrier, Function.update_of_ne hne]
  have hvalid := fun b' => (fixed_of_waiting hbarrier b').1
  have hexpected := fun b' => (fixed_of_waiting hbarrier b').2
  obtain ⟨hwait, hlen, hmod⟩ := h.count b hb
  have hround : arrivals b tr + 1 =
      (arrivals b tr / (s.barrier b).expected + 1) * (s.barrier b).expected :=
    round_last (by omega)
  have hinb : ∀ t ∈ q b, (s.thread t).context = .inBarrier b :=
    fun t ht => ((h.queued b hb t).mp ht).2.1
  refine ⟨h.toSchedInv.change htab hidx hcur ?_, fun b' => ?_, ?_, ?_, ?_, ?_, ?_, ?_, ?_⟩
  · intro t _
    by_cases ht : t ∈ q b
    · refine .inr ?_
      rw [hctx, hinb t ht]
      simp [Context.Idle]
    · exact .inl (hother t ht)
  · rw [hvalid, hexpected]
    exact h.fixed b'
  · intro t ht
    simp only [hvalid, hctx]
    exact h.contexts t ((hexi t).mp ht)
  · intro b' hb'
    rw [hvalid] at hb'
    by_cases hne : b' = b
    · subst hne
      rwa [Function.update_self]
    · rw [Function.update_of_ne hne]
      exact hframe _ _ (h.rep b' hb') (h.list_disjoint hb hb' hne)
  · intro b' hb' t
    rw [hvalid] at hb'
    rw [hexi t, hctx]
    by_cases hne : b' = b
    · subst hne
      rw [Function.update_self]
      simp only [List.not_mem_nil, false_iff, not_and]
      intro ht he hst
      by_cases hmem : t ∈ q b'
      · rw [hwoken t hmem] at hst
        exact absurd hst (by simp)
      · rw [hother t hmem] at hst
        exact hmem ((h.queued b' hb' t).mpr ⟨ht, he, hst⟩)
    · rw [Function.update_of_ne hne, h.queued b' hb' t]
      by_cases hmem : t ∈ q b
      · rw [hinb t hmem]
        simp [Ne.symm hne]
      · rw [hother t hmem]
  · intro b' hb'
    rw [hvalid] at hb'
    rw [hexpected, arrivals_passed]
    by_cases hne : b' = b
    · subst hne
      rw [hbself, Function.update_self, arrivals_arrived_self, hround, Nat.mul_mod_left]
      exact ⟨rfl, by simp only [List.length_nil]; omega, rfl⟩
    · rw [hbother b' hne, Function.update_of_ne hne, arrivals_arrived_ne (Ne.symm hne)]
      exact h.count b' hb'
  · intro b' hb' t ht
    rw [hvalid] at hb'
    rw [hexpected, arrivals_passed, lastCall_passed]
    by_cases hne : b' = b
    · subst hne
      rw [Function.update_self] at ht
      exact absurd ht (by simp)
    · rw [Function.update_of_ne hne] at ht
      rw [arrivals_arrived_ne (Ne.symm hne), lastCall_arrived_ne (.inr (Ne.symm hne))]
      exact h.current b' hb' t ht
  · intro b' hb' t ht he hst
    rw [hvalid] at hb'
    rw [hctx] at he
    rw [hexpected, arrivals_passed, lastCall_passed]
    have hex := (hexi t).mp ht
    have htc : t ≠ s.threadCurrent := by
      rintro rfl
      rw [hc] at he
      exact absurd he (by simp)
    rw [lastCall_arrived_ne (.inl htc)]
    by_cases hmem : t ∈ q b
    · -- a thread of the round that ends now
      obtain rfl : b = b' := by
        rw [hinb t hmem, Context.inBarrier.injEq] at he
        exact he
      obtain ⟨i, hi, hiq⟩ := h.current b hb t hmem
      refine ⟨i, hi, ?_⟩
      rw [arrivals_arrived_self, hround, hiq]
    · rw [hother t hmem] at hst
      obtain ⟨i, hi, hle⟩ := h.woken b' hb' t hex he hst
      refine ⟨i, hi, hle.trans ?_⟩
      by_cases hne : b' = b
      · subst hne
        rw [arrivals_arrived_self]
        omega
      · rw [arrivals_arrived_ne (Ne.symm hne)]
  · intro b' hb'
    rw [hvalid] at hb'
    rw [hexpected]
    refine ⟨?_, roundsOk_arrived (h.rounds b' hb')⟩
    intro t he
    rw [Event.barrierPassed.injEq] at he
    obtain ⟨rfl, rfl⟩ := he
    exact ⟨_, lastCall_arrived_self _, by rw [arrivals_arrived_self, hround]⟩

/-- A switch and the end of the call of the elected thread. -/
theorem BarrierInv.switch {es : List Event} (h : BarrierInv M spec s tr q)
    (hc : (s.thread s.threadCurrent).context ≠ .user) (hsw : schedSwitch M s = some s₁)
    (hres : resume M s₁ = some (s', es)) : BarrierInv M spec s' (es ++ tr) q := by
  obtain ⟨th, t, hth, htab, hready, hend⟩ := switch_spec h.cur hsw hres
  have hex : s.Existing M t := ⟨th, hth, htab⟩
  obtain ⟨rfl, hes⟩ : s' = s.elect th t ∧ (es = [] ∨
      ∃ b, (s.thread t).context = .inBarrier b ∧ (s.barrier b).magic = magicBarrier ∧
        es = [.barrierPassed t b]) := by
    rcases h.contexts t hex with hctx | (hctx | hctx) | ⟨b, hctx, hb⟩
    · exact absurd hctx (h.no_user hc hex)
    · rw [hctx] at hend
      exact ⟨hend.1, .inl hend.2⟩
    · rw [hctx] at hend
      exact ⟨hend.1, .inl hend.2⟩
    · rw [hctx] at hend
      exact ⟨hend.1, .inr ⟨b, hctx, hb, hend.2⟩⟩
  -- the events of a switch count no call
  have harr : ∀ b, arrivals b (es ++ tr) = arrivals b tr := by
    intro b
    rcases hes with rfl | ⟨b', -, -, rfl⟩
    · rfl
    · exact arrivals_passed
  have hlast : ∀ b u, lastCall b u (es ++ tr) = lastCall b u tr := by
    intro b u
    rcases hes with rfl | ⟨b', -, -, rfl⟩
    · rfl
    · exact lastCall_passed
  have hawake : ∀ b, (s.barrier b).magic = magicBarrier → t ∉ q b := by
    intro b hb hmem
    have hwait := ((h.queued b hb t).mp hmem).2.2
    rw [hready] at hwait
    exact absurd hwait (by simp)
  refine ⟨h.toSchedInv.elect hc hth htab, h.fixed, ?_, fun b hb => Sys.rep_congr (h.rep b hb) rfl rfl, ?_,
    ?_, ?_, ?_, ?_⟩
  · intro u hu
    by_cases hut : u = t
    · rw [hut, Sys.elect_self]
      exact .inl rfl
    · rw [Sys.elect_of_ne hut]
      exact h.contexts u hu
  · intro b hb u
    by_cases hut : u = t
    · subst hut
      rw [Sys.elect_self]
      simp [hawake b hb]
    · rw [Sys.elect_of_ne hut]
      exact h.queued b hb u
  · intro b hb
    rw [harr]
    exact h.count b hb
  · intro b hb u hu
    rw [hlast, harr]
    exact h.current b hb u hu
  · intro b hb u hu hctx hst
    rw [hlast, harr]
    by_cases hut : u = t
    · rw [hut, Sys.elect_self] at hctx
      exact absurd hctx (by simp)
    · rw [Sys.elect_of_ne hut] at hctx hst
      exact h.woken b hb u hu hctx hst
  · intro b hb
    rcases hes with rfl | ⟨b', hctx, hb', rfl⟩
    · exact h.rounds b hb
    · refine ⟨?_, h.rounds b hb⟩
      intro u he
      rw [Event.barrierPassed.injEq] at he
      obtain ⟨rfl, rfl⟩ := he
      exact h.woken b' hb' t hex hctx (by simp [hready])

theorem BarrierInv.step {c : Option Call} {es : List Event} (h : BarrierInv M spec s tr q)
    (hok : ∀ call ∈ c, BarrierCall call) (hstep : Step M s c es s') :
    ∃ q', BarrierInv M spec s' (es ++ tr) q' := by
  cases hstep with
  | switch hc hsw hres => exact ⟨q, h.switch hc hsw hres⟩
  | @call _ c r _ hc hcall =>
    have hcok := hok c rfl
    cases c with
    | yield =>
      simp only [doCall, Option.some.injEq, Prod.mk.injEq] at hcall
      obtain ⟨-, rfl, rfl⟩ := hcall
      exact ⟨q, h.yield hc⟩
    | barrierWait b =>
      rw [doCall] at hcall
      cases b with
      | none =>
        simp only [threadBarrierWait, Option.some.injEq, Prod.mk.injEq] at hcall
        obtain ⟨-, rfl, rfl⟩ := hcall
        exact ⟨q, h⟩
      | some b =>
        by_cases hb : (s.barrier b).magic = magicBarrier
        · by_cases hlast : (s.barrier b).waiting + 1 = (s.barrier b).expected
          · obtain ⟨s₂, hw, hrep, hs₂, hframe⟩ :=
              barrierWait_last hb hlast (h.rep b hb) (h.count b hb).1.symm
            rw [hw, Option.some.injEq, Prod.mk.injEq, Prod.mk.injEq] at hcall
            obtain ⟨-, rfl, rfl⟩ := hcall
            exact ⟨_, h.release hc hb hlast hs₂ hrep hframe⟩
          · obtain ⟨s₂, hs₂⟩ : ∃ s₂, s₂ =
              s.modBarrier b fun x => { x with waiting := x.waiting + 1 } := ⟨_, rfl⟩
            have hmore : (s₂.barrier b).waiting ≠ (s₂.barrier b).expected := by
              rw [hs₂]
              simpa [Sys.modBarrier] using hlast
            simp only [threadBarrierWait, hb, ne_eq, not_true_eq_false, if_false, ← hs₂] at hcall
            rw [if_neg hmore, Option.some.injEq, Prod.mk.injEq, Prod.mk.injEq] at hcall
            obtain ⟨-, rfl, rfl⟩ := hcall
            exact ⟨_, h.block hc hb hlast (by rw [hs₂])⟩
        · simp only [threadBarrierWait, ne_eq, hb, not_false_eq_true, if_true, Option.some.injEq,
            Prod.mk.injEq] at hcall
          obtain ⟨-, rfl, rfl⟩ := hcall
          exact ⟨q, h⟩
    | create => exact absurd hcok (by simp [BarrierCall])
    | exit v => exact absurd hcok (by simp [BarrierCall])
    | join x => exact absurd hcok (by simp [BarrierCall])
    | lock m => exact absurd hcok (by simp [BarrierCall])
    | unlock m => exact absurd hcok (by simp [BarrierCall])

theorem BarrierInv.safe (h : BarrierInv M spec s tr q) (hb : (s.barrier b).magic = magicBarrier) :
    BarrierSafe M s tr b (s.barrier b).expected := by
  obtain ⟨hwait, hlen, -⟩ := h.count b hb
  have hnodup : (q b).Nodup := List.Nodup.of_map Cell.thread (h.rep b hb).nodup
  refine ⟨rfl, ⟨q b, h.rep b hb, hnodup, hwait, hlen, h.queued b hb⟩, h.rounds b hb, ?_⟩
  intro hc hlast xs hxs
  obtain rfl : xs = q b :=
    List.map_injective_iff.mpr (fun _ _ he => Cell.thread.inj he) (hxs.unique (h.rep b hb))
  obtain ⟨s', hw, hrep, hs', -⟩ := barrierWait_last hb hlast hxs hwait.symm
  refine ⟨s', _, hw, by omega, ?_, hrep, ?_, ?_⟩
  · rw [hs']
    simp
  · intro t ht
    rw [hs']
    simp [wake, ht]
  · intro t ht
    rw [hs']
    simp [wake, ht]

end

/-- In every run of barrier calls and yields, every barrier works in rounds of the
number of threads it was initialised with. -/
theorem barrierRun_safe {M : Machine} {s₀ s : Sys} {tr : List Event} {b : Nat}
    (h₀ : BarrierStart M s₀) (h : Run M (fun _ _ => BarrierCall) s₀ s tr)
    (hb : (s₀.barrier b).magic = magicBarrier) :
    BarrierSafe M s tr b (s₀.barrier b).expected := by
  have hinv : ∃ q, BarrierInv M (fun b => ((s₀.barrier b).magic, (s₀.barrier b).expected)) s tr
      q := by
    induction h with
    | init => exact ⟨_, barrierInv_start h₀⟩
    | step _ hok hstep ih =>
      obtain ⟨q, hq⟩ := ih
      exact hq.step hok hstep
  obtain ⟨q, hq⟩ := hinv
  obtain ⟨hmagic, hexpected⟩ := Prod.mk.inj (hq.fixed b)
  rw [← hexpected]
  exact hq.safe (hmagic.trans hb)

theorem barrierStart_twoThreads : BarrierStart smallMachine twoThreads :=
  ⟨threadsReady_twoThreads, fun _ _ =>
    ⟨rfl, rfl, Nat.zero_lt_two, rfl, isRing_nil rfl rfl, fun _ _ => trivial⟩⟩

/-- The first thread waits at a barrier of two, the second one arrives and starts
the next round before the first one has returned. -/
theorem barrierRun_safe_twoThreads :
    ∃ s tr, Run smallMachine (fun _ _ => BarrierCall) twoThreads s tr ∧ arrivals 0 tr = 3 ∧
      BarrierSafe smallMachine s tr 0 2 := by
  have h1 : Run smallMachine (fun _ _ => BarrierCall) twoThreads twoThreads [] := .init
  have h2 := h1.step (c := some (.barrierWait (some 0))) (by simp [BarrierCall]) (.call rfl rfl)
  have h3 := h2.step (c := none) (by simp) (.switch (by decide) rfl rfl)
  have h4 := h3.step (c := some (.barrierWait (some 0))) (by simp [BarrierCall]) (.call rfl rfl)
  have h5 := h4.step (c := some (.barrierWait (some 0))) (by simp [BarrierCall]) (.call rfl rfl)
  have h6 := h5.step (c := none) (by simp) (.switch (by decide) rfl rfl)
  exact ⟨_, _, h6, by decide, barrierRun_safe barrierStart_twoThreads h6 rfl⟩

end Ko6.Kernel
