import Ko6.Kernel.ThreadSteps

set_option autoImplicit false

/-!
# Kernel: the life of threads in every run

The threads of a run create threads, yield, exit and join each other.  A thread is
named by its page, and a page that has been given back may be the page of a later
thread, so what a run tells about a thread is read from the events since the last
creation of a thread at its address.

The invariant has four parts: the table (`Slots`), the states and the links between
the threads that join and those they wait for (`Links`), the pages and stacks the
threads hold (`Held`), and what has been freed so far (`Releases`).
-/

namespace Ko6.Kernel

open Ko6.Lib Ko6.Common

/-! ## What a run tells about a thread -/

namespace Event

def creates (x : Nat) : Event → Bool
  | .created t _ _ => t = x
  | _ => false

/-- The events of `thread_destroy`. -/
def frees (x : Nat) : Event → Bool
  | .pageFreed t | .slotFreed t _ | .stackFreed t _ => t = x
  | _ => false

def exitValue (x : Nat) : Event → Option Nat
  | .exited t v => if t = x then some v else none
  | _ => none

end Event

/-- The events since the creation of thread `x`. -/
def life (x : Nat) (tr : List Event) : List Event := tr.takeWhile fun e => !e.creates x

/-- The values given to `thread_exit` by thread `x`. -/
def exitValues (x : Nat) (tr : List Event) : List Nat := (life x tr).filterMap (Event.exitValue x)

/-- What has been freed of thread `x`. -/
def freed (x : Nat) (tr : List Event) : List Event := (life x tr).filter (Event.frees x)

/-- A thread has called `thread_join` for `x`. -/
def Awaited (x : Nat) (tr : List Event) : Prop := ∃ c, .joinCalled c x ∈ life x tr

/-- The threads that have been created and not destroyed. -/
def Living (M : Machine) (s₀ : Sys) (t : Nat) : List Event → Prop
  | [] => s₀.Existing M t
  | e :: tr =>
    match e with
    | .created u _ _ => t = u ∨ Living M s₀ t tr
    | .pageFreed u => t ≠ u ∧ Living M s₀ t tr
    | _ => Living M s₀ t tr

/-- The place in the table and the stack that thread `x` got when it was created. -/
def given (s₀ : Sys) (x : Nat) : List Event → Nat × Nat
  | [] => ((s₀.thread x).tid, (s₀.thread x).ustackB)
  | e :: tr =>
    match e with
    | .created u tid top => if u = x then (tid, top) else given s₀ x tr
    | _ => given s₀ x tr

/-- All that thread `x` got, freed once each, newest first. -/
def allFreed (s₀ : Sys) (x : Nat) (tr : List Event) : List Event :=
  [.pageFreed x, .slotFreed x (given s₀ x tr).1, .stackFreed x (given s₀ x tr).2]

/-- Whenever `thread_join` has returned the value `v`, the thread it waited for had
exited, once, with this value. -/
def JoinsOk : List Event → Prop
  | [] => True
  | e :: tr => (∀ c x v, e = .joined c x v → exitValues x tr = [v]) ∧ JoinsOk tr

/-- The calls of these runs: a thread joins another one that nobody has joined. -/
def LifeCall (M : Machine) (s : Sys) (tr : List Event) : Call → Prop
  | .create | .yield | .exit _ | .join none => True
  | .join (some x) => s.Existing M x ∧ x ≠ s.threadCurrent ∧ ¬ Awaited x tr
  | _ => False

/-! ## The parts of the invariant -/

/-- The table holds the threads that live, each at its `tid`. -/
structure Slots (M : Machine) (s₀ s : Sys) (tr : List Event) : Prop where
  tid : ∀ i t, i < M.threadMax → s.threadTab i = some t → (s.thread t).tid = i
  living : ∀ t, Living M s₀ t tr ↔ s.Existing M t
  given : ∀ t, s.Existing M t → given s₀ t tr = ((s.thread t).tid, (s.thread t).ustackB)

/-- The kernel's objects are the pages of the threads and those of `base`, and the
user stacks in use are the stacks of the threads. -/
structure Held (M : Machine) (base : Live) (s : Sys) : Prop where
  pages : ∃ live kind free, Inv M.kernel s.kmem live kind free ∧
    (∀ t, s.Existing M t → live t = some pageSize ∧ base t = none) ∧
    ∀ a, ¬ s.Existing M a → live a = base a
  ustacks : ∃ live free, UstackInv M.user s.umem live free ∧
    ∀ e, live e ↔ ∃ t, s.Existing M t ∧ (s.thread t).ustackB = e + (ustackSize - 4)
  stack : ∀ t, s.Existing M t → ∃ e, (s.thread t).ustackB = e + (ustackSize - 4)
  apart : ∀ t u, s.Existing M t → s.Existing M u → (s.thread t).ustackB = (s.thread u).ustackB →
    t = u

/-- The states of the threads.  `w` is a thread whose end has been awaited by the
current thread, which goes on to destroy it. -/
structure Links (M : Machine) (s : Sys) (tr : List Event) (w : Option Nat) : Prop where
  contexts : ∀ t, s.Existing M t → (s.thread t).context = .user ∨ (s.thread t).context.Idle ∨
    (s.thread t).context = .inExit ∨ ∃ x, (s.thread t).context = .inJoin x
  zombie : ∀ t, s.Existing M t → ((s.thread t).state = .zombie ↔ (s.thread t).context = .inExit)
  joiner : ∀ t x, s.Existing M t → (s.thread t).context = .inJoin x →
    s.Existing M x ∧ (s.thread x).join = some t ∧ w ≠ some x ∧ Awaited x tr ∧
      ((s.thread x).state = .zombie → (s.thread t).state = .ready) ∧
      ((s.thread x).state ≠ .zombie → (s.thread t).state = .wait)
  awaited : ∀ x, s.Existing M x → Awaited x tr → w = some x ∨
    ∃ t, s.Existing M t ∧ (s.thread t).context = .inJoin x
  unawaited : ∀ x, s.Existing M x → ¬ Awaited x tr → (s.thread x).join = none
  exits : ∀ t, s.Existing M t →
    exitValues t tr = if (s.thread t).state = .zombie then [(s.thread t).retval] else []

/-- What has been freed is all of the threads that were joined. -/
structure Releases (M : Machine) (s₀ s : Sys) (tr : List Event) : Prop where
  kept : ∀ x, s.Existing M x → freed x tr = []
  joined : ∀ c x v, .joined c x v ∈ life x tr →
    ¬ s.Existing M x ∧ freed x tr = allFreed s₀ x tr
  joins : JoinsOk tr

/-- The invariant of a run. -/
structure LifeInv (M : Machine) (s₀ : Sys) (base : Live) (s : Sys) (tr : List Event)
    (w : Option Nat) : Prop extends SchedInv M s, Slots M s₀ s tr, Held M base s,
    Links M s tr w, Releases M s₀ s tr

/-! ## Events that create and free nothing -/

/-- The events of `thread_exit` and of the beginning of `thread_join`. -/
def Event.Quiet : Event → Prop
  | .exited _ _ | .joinCalled _ _ => True
  | _ => False

section
variable {M : Machine} {s₀ s s' : Sys} {base : Live} {e : Event} {tr es : List Event} {x t : Nat}
  {w : Option Nat}

theorem life_cons_of_not_creates (h : e.creates x = false) : life x (e :: tr) = e :: life x tr := by
  unfold life
  rw [List.takeWhile_cons, h]
  rfl

theorem life_created {tid top : Nat} : life x (.created x tid top :: tr) = [] := by
  simp [life, Event.creates]

theorem Event.Quiet.life (h : e.Quiet) : life x (e :: tr) = e :: life x tr := by
  apply life_cons_of_not_creates
  cases e <;> first | rfl | exact h.elim

theorem Event.Quiet.freed (h : e.Quiet) : freed x (e :: tr) = freed x tr := by
  unfold Kernel.freed
  rw [h.life]
  cases e <;> first | rfl | exact h.elim

theorem Event.Quiet.given (h : e.Quiet) : given s₀ x (e :: tr) = given s₀ x tr := by
  cases e <;> first | rfl | exact h.elim

theorem Event.Quiet.living (h : e.Quiet) : Living M s₀ t (e :: tr) = Living M s₀ t tr := by
  cases e <;> first | rfl | exact h.elim

/-- Only the states, contexts, links and values of threads change. -/
structure SameHeld (s s' : Sys) : Prop where
  tab : s'.threadTab = s.threadTab
  kmem : s'.kmem = s.kmem
  umem : s'.umem = s.umem
  tid : ∀ t, (s'.thread t).tid = (s.thread t).tid
  ustackB : ∀ t, (s'.thread t).ustackB = (s.thread t).ustackB

theorem SameHeld.existing (h : SameHeld s s') (t : Nat) : s'.Existing M t ↔ s.Existing M t := by
  unfold Sys.Existing
  rw [h.tab]

theorem Slots.same (h : Slots M s₀ s tr) (hs : SameHeld s s') : Slots M s₀ s' tr := by
  constructor
  · intro i t hi ht
    rw [hs.tid]
    exact h.tid i t hi (hs.tab ▸ ht)
  · intro t
    rw [hs.existing]
    exact h.living t
  · intro t ht
    rw [hs.tid, hs.ustackB]
    exact h.given t ((hs.existing t).mp ht)

theorem Slots.quiet (h : Slots M s₀ s tr) (he : e.Quiet) : Slots M s₀ s (e :: tr) := by
  constructor
  · exact h.tid
  · intro t
    rw [he.living]
    exact h.living t
  · intro t ht
    rw [he.given]
    exact h.given t ht

theorem Held.same (h : Held M base s) (hs : SameHeld s s') : Held M base s' := by
  obtain ⟨⟨live, kind, free, hinv, hpages, hothers⟩, ⟨stk, ufree, hustack, hstk⟩, hstack, hapart⟩ := h
  constructor
  · refine ⟨live, kind, free, hs.kmem ▸ hinv, ?_, ?_⟩
    · intro t ht
      exact hpages t ((hs.existing t).mp ht)
    · intro a ha
      exact hothers a fun he => ha ((hs.existing a).mpr he)
  · refine ⟨stk, ufree, hs.umem ▸ hustack, fun e => ?_⟩
    rw [hstk]
    simp only [hs.existing, hs.ustackB]
  · intro t ht
    rw [hs.ustackB]
    exact hstack t ((hs.existing t).mp ht)
  · intro t u ht hu he
    rw [hs.ustackB, hs.ustackB] at he
    exact hapart t u ((hs.existing t).mp ht) ((hs.existing u).mp hu) he

theorem Releases.same (h : Releases M s₀ s tr) (hs : SameHeld s s') : Releases M s₀ s' tr := by
  constructor
  · intro x hx
    exact h.kept x ((hs.existing x).mp hx)
  · intro c x v hj
    rw [hs.existing]
    exact h.joined c x v hj
  · exact h.joins

theorem Releases.quiet (h : Releases M s₀ s tr) (he : e.Quiet) : Releases M s₀ s (e :: tr) := by
  constructor
  · intro x hx
    rw [he.freed]
    exact h.kept x hx
  · intro c x v hj
    have hgiven : given s₀ x (e :: tr) = given s₀ x tr := he.given
    rw [he.life, List.mem_cons] at hj
    rw [he.freed, allFreed, hgiven]
    refine h.joined c x v (hj.resolve_left ?_)
    rintro rfl
    exact he
  · refine ⟨?_, h.joins⟩
    rintro c x v rfl
    exact he.elim

/-! ## Yields -/

theorem SameHeld.trans {s'' : Sys} (h : SameHeld s s') (h' : SameHeld s' s'') : SameHeld s s'' where
  tab := h'.tab.trans h.tab
  kmem := h'.kmem.trans h.kmem
  umem := h'.umem.trans h.umem
  tid t := (h'.tid t).trans (h.tid t)
  ustackB t := (h'.ustackB t).trans (h.ustackB t)

theorem SameHeld.modThread {f : Thread → Thread}
    (hf : ∀ th, (f th).tid = th.tid ∧ (f th).ustackB = th.ustackB) :
    SameHeld s (s.modThread t f) := by
  refine ⟨rfl, rfl, rfl, ?_, ?_⟩
  all_goals
    intro u
    by_cases hu : u = t
    · rw [hu, Sys.modThread_self]
      first | exact (hf _).1 | exact (hf _).2
    · rw [Sys.modThread_of_ne hu]

theorem SameHeld.setState {st : ThState} : SameHeld s (s.setState t st) :=
  .modThread fun _ => ⟨rfl, rfl⟩

theorem SameHeld.setContext {c : Context} : SameHeld s (s.setContext t c) :=
  .modThread fun _ => ⟨rfl, rfl⟩

theorem SameHeld.elect {th : Nat} : SameHeld s (s.elect th t) := by
  have hcur : SameHeld s { s with threadCurrentIdx := th, threadCurrent := t } :=
    ⟨rfl, rfl, rfl, fun _ => rfl, fun _ => rfl⟩
  exact hcur.trans (.trans .setState .setContext)

/-- A thread in its own code or waiting for the processor. -/
def Thread.Plain (th : Thread) : Prop :=
  (th.context = .user ∨ th.context.Idle) ∧ th.state ≠ .zombie

theorem Thread.Plain.context {th : Thread} (h : th.Plain) :
    th.context ≠ .inExit ∧ ∀ x, th.context ≠ .inJoin x := by
  rcases h.1 with he | he | he <;> rw [he] <;> simp

/-- Threads that neither exit nor join do not matter. -/
theorem Links.plain (h : Links M s tr w) (htab : s'.threadTab = s.threadTab)
    (hth : ∀ t, s.Existing M t → s'.thread t = s.thread t ∨
      (s.thread t).Plain ∧ (s'.thread t).Plain ∧ (s'.thread t).join = (s.thread t).join) :
    Links M s' tr w := by
  have hex : ∀ t, s'.Existing M t ↔ s.Existing M t := by
    intro t
    unfold Sys.Existing
    rw [htab]
  have hzombie : ∀ t, s.Existing M t →
      ((s'.thread t).state = .zombie ↔ (s.thread t).state = .zombie) := by
    intro t ht
    rcases hth t ht with he | ⟨hp, hp', -⟩
    · rw [he]
    · simp [hp.2, hp'.2]
  have hjoin : ∀ t, s.Existing M t → (s'.thread t).join = (s.thread t).join := by
    intro t ht
    rcases hth t ht with he | ⟨-, -, he⟩
    · rw [he]
    · exact he
  constructor
  · intro t ht
    rcases hth t ((hex t).mp ht) with he | ⟨-, hp, -⟩
    · rw [he]
      exact h.contexts t ((hex t).mp ht)
    · exact hp.1.imp id .inl
  · intro t ht
    rcases hth t ((hex t).mp ht) with he | ⟨-, hp, -⟩
    · rw [he]
      exact h.zombie t ((hex t).mp ht)
    · simp [hp.2, hp.context.1]
  · intro t x ht hctx
    rcases hth t ((hex t).mp ht) with he | ⟨-, hp, -⟩
    · rw [he] at hctx ⊢
      obtain ⟨hx, hj, hw, ha, hready, hwait⟩ := h.joiner t x ((hex t).mp ht) hctx
      refine ⟨(hex x).mpr hx, (hjoin x hx).trans hj, hw, ha, ?_, ?_⟩
      · rw [hzombie x hx]
        exact hready
      · rw [ne_eq, hzombie x hx]
        exact hwait
    · exact absurd hctx (hp.context.2 x)
  · intro x hx ha
    refine (h.awaited x ((hex x).mp hx) ha).imp id ?_
    rintro ⟨t, ht, hctx⟩
    refine ⟨t, (hex t).mpr ht, ?_⟩
    rcases hth t ht with he | ⟨hp, -, -⟩
    · rw [he]
      exact hctx
    · exact absurd hctx (hp.context.2 x)
  · intro x hx ha
    rw [hjoin x ((hex x).mp hx)]
    exact h.unawaited x ((hex x).mp hx) ha
  · intro t ht
    rw [h.exits t ((hex t).mp ht)]
    rcases hth t ((hex t).mp ht) with he | ⟨hp, hp', -⟩
    · rw [he]
    · rw [if_neg hp.2, if_neg hp'.2]

/-- The running thread. -/
theorem LifeInv.cur_plain (h : LifeInv M s₀ base s tr w)
    (hc : (s.thread s.threadCurrent).context = .user) : (s.thread s.threadCurrent).Plain := by
  refine ⟨.inl hc, ?_⟩
  rw [(h.user _ h.existing_cur hc).2]
  simp

theorem LifeInv.yield (h : LifeInv M s₀ base s tr w)
    (hc : (s.thread s.threadCurrent).context = .user) :
    LifeInv M s₀ base (threadYield s) tr w := by
  have hsame : SameHeld s (threadYield s) := .trans .setState .setContext
  refine ⟨h.toSchedInv.yield, h.toSlots.same hsame, h.toHeld.same hsame, h.toLinks.plain rfl ?_,
    h.toReleases.same hsame⟩
  intro t _
  by_cases ht : t = s.threadCurrent
  · refine .inr ⟨ht ▸ h.cur_plain hc, ?_, ?_⟩
    · rw [ht, threadYield_self]
      simp [Thread.Plain, Context.Idle]
    · rw [ht, threadYield_self]
  · exact .inl (threadYield_of_ne ht)

/-- The elected thread was not in a join: it goes on in its own code. -/
theorem LifeInv.elect_plain {th : Nat} (h : LifeInv M s₀ base s tr w)
    (hc : (s.thread s.threadCurrent).context ≠ .user) (hth : th < M.threadMax)
    (htab : s.threadTab th = some t) (hready : (s.thread t).state = .ready)
    (hidle : (s.thread t).context.Idle) : LifeInv M s₀ base (s.elect th t) tr w := by
  refine ⟨h.toSchedInv.elect hc hth htab, h.toSlots.same .elect, h.toHeld.same .elect,
    h.toLinks.plain rfl ?_, h.toReleases.same .elect⟩
  intro u _
  by_cases hu : u = t
  · refine .inr ⟨⟨.inr (hu ▸ hidle), ?_⟩, ?_, ?_⟩
    · rw [hu, hready]
      simp
    · rw [hu, Sys.elect_self]
      exact ⟨.inl rfl, by simp⟩
    · rw [hu, Sys.elect_self]
  · exact .inl (Sys.elect_of_ne hu)

/-! ## Exits -/

theorem quiet_exited {c v : Nat} : (Event.exited c v).Quiet := trivial

theorem exitValues_exited {c v : Nat} :
    exitValues x (.exited c v :: tr) = if c = x then v :: exitValues x tr else exitValues x tr := by
  unfold exitValues
  rw [quiet_exited.life]
  by_cases h : c = x
  · simp [Event.exitValue, h]
  · simp [Event.exitValue, h]

theorem awaited_exited {c v : Nat} : Awaited x (.exited c v :: tr) ↔ Awaited x tr := by
  unfold Awaited
  rw [quiet_exited.life]
  simp

theorem SameHeld.exit {v : Nat} : SameHeld s (threadExit v s).1 := by
  unfold threadExit
  refine SameHeld.trans ?_ .setContext
  refine SameHeld.trans (.modThread (t := s.threadCurrent)
    (f := fun th => { th with retval := v, state := .zombie }) fun _ => ⟨rfl, rfl⟩) ?_
  split
  · exact ⟨rfl, rfl, rfl, fun _ => rfl, fun _ => rfl⟩
  · exact .setState

/-- The threads after `thread_exit`: the one that waits for the current thread is
`READY`. -/
theorem threadExit_thread {v : Nat} (hne : (s.thread s.threadCurrent).join ≠ some s.threadCurrent) :
    ((threadExit v s).1.thread s.threadCurrent =
      { s.thread s.threadCurrent with retval := v, state := .zombie, context := .inExit }) ∧
    (∀ t, t ≠ s.threadCurrent → (s.thread s.threadCurrent).join = some t →
      (threadExit v s).1.thread t = { s.thread t with state := .ready }) ∧
    ∀ t, t ≠ s.threadCurrent → (s.thread s.threadCurrent).join ≠ some t →
      (threadExit v s).1.thread t = s.thread t := by
  unfold threadExit
  cases hj : (s.thread s.threadCurrent).join with
  | none =>
    simp only [Sys.modThread_self, hj]
    refine ⟨by simp [hj], by simp, fun t ht _ => by simp [ht]⟩
  | some j =>
    have hjc : j ≠ s.threadCurrent := by
      rintro rfl
      exact hne hj
    simp only [Sys.modThread_self, hj]
    refine ⟨by simp [Ne.symm hjc, hj], ?_, ?_⟩
    · rintro t ht hjt
      rw [Option.some.injEq] at hjt
      subst hjt
      simp [ht]
    · intro t ht hjt
      have htj : t ≠ j := fun e => hjt (e ▸ rfl)
      simp [ht, htj]

/-- The link of a thread names the one that has joined it. -/
theorem Links.join_eq (h : Links M s tr none) (hx : s.Existing M x)
    (hj : (s.thread x).join = some t) : s.Existing M t ∧ (s.thread t).context = .inJoin x := by
  have ha : Awaited x tr := by
    by_contra hna
    rw [h.unawaited x hx hna] at hj
    exact absurd hj (by simp)
  obtain ⟨u, hu, hctx⟩ := (h.awaited x hx ha).resolve_left (by simp)
  obtain ⟨-, hju, -⟩ := h.joiner u x hu hctx
  rw [hj, Option.some.injEq] at hju
  subst hju
  exact ⟨hu, hctx⟩

theorem LifeInv.exit {v : Nat} (h : LifeInv M s₀ base s tr none)
    (hc : (s.thread s.threadCurrent).context = .user) :
    LifeInv M s₀ base (threadExit v s).1 (.exited s.threadCurrent v :: tr) none := by
  have hcex := h.existing_cur
  have hrun := (h.user _ hcex hc).2
  have hjoin : ∀ t, (s.thread s.threadCurrent).join = some t →
      s.Existing M t ∧ (s.thread t).context = .inJoin s.threadCurrent :=
    fun t => h.toLinks.join_eq hcex
  have hne : (s.thread s.threadCurrent).join ≠ some s.threadCurrent := by
    intro hj
    have hctx := (hjoin _ hj).2
    rw [hc] at hctx
    exact absurd hctx (by simp)
  obtain ⟨hself, hwoken, hother⟩ := threadExit_thread (v := v) hne
  have hsame : SameHeld s (threadExit v s).1 := .exit
  have hquiet : (Event.exited s.threadCurrent v).Quiet := quiet_exited
  have hcur : (threadExit v s).1.threadCurrent = s.threadCurrent ∧
      (threadExit v s).1.threadCurrentIdx = s.threadCurrentIdx := by
    unfold threadExit
    cases hj : (s.thread s.threadCurrent).join <;> simp only [Sys.modThread_self, hj] <;>
      exact ⟨rfl, rfl⟩
  have hcontext : ∀ t, t ≠ s.threadCurrent →
      ((threadExit v s).1.thread t).context = (s.thread t).context ∧
      ((threadExit v s).1.thread t).join = (s.thread t).join ∧
      ((threadExit v s).1.thread t).retval = (s.thread t).retval := by
    intro t ht
    by_cases hj : (s.thread s.threadCurrent).join = some t
    · rw [hwoken t ht hj]
      exact ⟨rfl, rfl, rfl⟩
    · rw [hother t ht hj]
      exact ⟨rfl, rfl, rfl⟩
  have hzombie : ∀ t, s.Existing M t → t ≠ s.threadCurrent →
      (((threadExit v s).1.thread t).state = .zombie ↔ (s.thread t).state = .zombie) := by
    intro t ht htc
    by_cases hj : (s.thread s.threadCurrent).join = some t
    · have hz := h.zombie t ht
      rw [(hjoin t hj).2] at hz
      rw [hwoken t htc hj]
      simp only [reduceCtorEq, iff_false, false_iff] at hz ⊢
      exact hz
    · rw [hother t htc hj]
  refine ⟨h.toSchedInv.change hsame.tab hcur.2 hcur.1 ?_, (h.toSlots.same hsame).quiet hquiet,
    h.toHeld.same hsame, ?_, (h.toReleases.same hsame).quiet hquiet⟩
  · intro t ht
    by_cases htc : t = s.threadCurrent
    · refine .inr ?_
      rw [htc, hself]
      simp [Context.Idle]
    · by_cases hj : (s.thread s.threadCurrent).join = some t
      · refine .inr ?_
        rw [hwoken t htc hj]
        simp [(hjoin t hj).2]
      · exact .inl (hother t htc hj)
  · constructor
    · intro t ht
      have ht' := (hsame.existing t).mp ht
      by_cases htc : t = s.threadCurrent
      · rw [htc, hself]
        exact .inr (.inr (.inl rfl))
      · rw [(hcontext t htc).1]
        exact h.contexts t ht'
    · intro t ht
      have ht' := (hsame.existing t).mp ht
      by_cases htc : t = s.threadCurrent
      · rw [htc, hself]
        simp
      · rw [hzombie t ht' htc, (hcontext t htc).1]
        exact h.zombie t ht'
    · intro t x ht hctx
      have ht' := (hsame.existing t).mp ht
      by_cases htc : t = s.threadCurrent
      · rw [htc, hself] at hctx
        exact absurd hctx (by simp)
      · rw [(hcontext t htc).1] at hctx
        obtain ⟨hx, hj, hw, ha, hready, hwait⟩ := h.joiner t x ht' hctx
        by_cases hxc : x = s.threadCurrent
        · subst hxc
          rw [hself, hwoken t htc hj]
          exact ⟨(hsame.existing _).mpr hx, hj, hw, awaited_exited.mpr ha, by simp, by simp⟩
        · -- the thread waits for another one
          have hjt : (s.thread s.threadCurrent).join ≠ some t := by
            intro he
            have hctx' := (hjoin t he).2
            rw [hctx, Context.inJoin.injEq] at hctx'
            exact hxc hctx'
          simp only [hother t htc hjt, (hcontext x hxc).2.1, ne_eq, hzombie x hx hxc]
          exact ⟨(hsame.existing x).mpr hx, hj, hw, awaited_exited.mpr ha, hready, hwait⟩
    · intro x hx ha
      obtain ⟨t, ht, hctx⟩ := (h.awaited x ((hsame.existing x).mp hx)
        (awaited_exited.mp ha)).resolve_left (by simp)
      have htc : t ≠ s.threadCurrent := by
        rintro rfl
        rw [hc] at hctx
        exact absurd hctx (by simp)
      exact .inr ⟨t, (hsame.existing t).mpr ht, (hcontext t htc).1.trans hctx⟩
    · intro x hx ha
      have hold := h.unawaited x ((hsame.existing x).mp hx) (fun hold => ha (awaited_exited.mpr hold))
      by_cases hxc : x = s.threadCurrent
      · rw [hxc, hself]
        rw [hxc] at hold
        exact hold
      · rw [(hcontext x hxc).2.1]
        exact hold
    · intro t ht
      have ht' := (hsame.existing t).mp ht
      rw [exitValues_exited, h.exits t ht']
      by_cases htc : t = s.threadCurrent
      · rw [htc, hself, hrun]
        simp
      · rw [if_neg (Ne.symm htc), (hcontext t htc).2.2]
        simp only [hzombie t ht' htc]

/-! ## The beginning of a join -/

theorem quiet_joinCalled {c y : Nat} : (Event.joinCalled c y).Quiet := trivial

theorem exitValues_joinCalled {c y : Nat} :
    exitValues x (.joinCalled c y :: tr) = exitValues x tr := by
  unfold exitValues
  rw [quiet_joinCalled.life]
  rfl

theorem awaited_joinCalled {c y : Nat} :
    Awaited x (.joinCalled c y :: tr) ↔ x = y ∨ Awaited x tr := by
  unfold Awaited
  rw [quiet_joinCalled.life]
  simp only [List.mem_cons, Event.joinCalled.injEq, exists_or, exists_and_right, exists_eq, true_and]

/-- The link to the current thread is set. -/
theorem LifeInv.joinCall (h : LifeInv M s₀ base s tr none) (hx : s.Existing M x)
    (hxc : x ≠ s.threadCurrent) (ha : ¬ Awaited x tr) :
    LifeInv M s₀ base (s.modThread x fun th => { th with join := some s.threadCurrent })
      (.joinCalled s.threadCurrent x :: tr) (some x) := by
  obtain ⟨s', hs'⟩ : ∃ s', s' = s.modThread x fun th => { th with join := some s.threadCurrent } :=
    ⟨_, rfl⟩
  rw [← hs']
  have hsame : SameHeld s s' := hs' ▸ .modThread fun _ => ⟨rfl, rfl⟩
  have hself : s'.thread x = { s.thread x with join := some s.threadCurrent } := by
    rw [hs', Sys.modThread_self]
  have hother : ∀ t, t ≠ x → s'.thread t = s.thread t := by
    intro t ht
    rw [hs', Sys.modThread_of_ne ht]
  have hfields : ∀ t, (s'.thread t).context = (s.thread t).context ∧
      (s'.thread t).state = (s.thread t).state ∧ (s'.thread t).retval = (s.thread t).retval := by
    intro t
    by_cases ht : t = x
    · rw [ht, hself]
      exact ⟨rfl, rfl, rfl⟩
    · rw [hother t ht]
      exact ⟨rfl, rfl, rfl⟩
  have hsched : SchedInv M s' := by
    refine h.toSchedInv.change (by rw [hs']; rfl) (by rw [hs']; rfl) (by rw [hs']; rfl) ?_
    intro t ht
    by_cases htx : t = x
    · refine .inr ?_
      rw [(hfields t).1, (hfields t).2.1]
      exact ⟨fun hu => hxc (htx ▸ (h.user t ht hu).1), h.idle t ht⟩
    · exact .inl (hother t htx)
  refine ⟨hsched, (h.toSlots.same hsame).quiet quiet_joinCalled, h.toHeld.same hsame, ?_,
    (h.toReleases.same hsame).quiet quiet_joinCalled⟩
  constructor
  · intro t ht
    rw [(hfields t).1]
    exact h.contexts t ((hsame.existing t).mp ht)
  · intro t ht
    rw [(hfields t).1, (hfields t).2.1]
    exact h.zombie t ((hsame.existing t).mp ht)
  · intro t y ht hctx
    rw [(hfields t).1] at hctx
    obtain ⟨hy, hj, -, hay, hready, hwait⟩ := h.joiner t y ((hsame.existing t).mp ht) hctx
    have hyx : y ≠ x := fun e => ha (e ▸ hay)
    rw [hother y hyx, (hfields t).2.1]
    exact ⟨(hsame.existing y).mpr hy, hj, by simpa using Ne.symm hyx,
      awaited_joinCalled.mpr (.inr hay), hready, hwait⟩
  · intro y hy hay
    rcases awaited_joinCalled.mp hay with rfl | hay
    · exact .inl rfl
    · obtain ⟨t, ht, hctx⟩ := (h.awaited y ((hsame.existing y).mp hy) hay).resolve_left (by simp)
      exact .inr ⟨t, (hsame.existing t).mpr ht, (hfields t).1.trans hctx⟩
  · intro y hy hay
    rw [awaited_joinCalled, not_or] at hay
    rw [hother y hay.1]
    exact h.unawaited y ((hsame.existing y).mp hy) hay.2
  · intro t ht
    rw [exitValues_joinCalled, (hfields t).2.1, (hfields t).2.2]
    exact h.exits t ((hsame.existing t).mp ht)

/-- The current thread waits for `x`. -/
theorem LifeInv.joinWait (h : LifeInv M s₀ base s tr (some x)) (hx : s.Existing M x)
    (hc : (s.thread s.threadCurrent).context = .user)
    (hj : (s.thread x).join = some s.threadCurrent) (ha : Awaited x tr)
    (hnz : (s.thread x).state ≠ .zombie) :
    LifeInv M s₀ base ((s.setState s.threadCurrent .wait).setContext s.threadCurrent (.inJoin x)) tr
      none := by
  obtain ⟨s', hs'⟩ : ∃ s', s' =
    (s.setState s.threadCurrent .wait).setContext s.threadCurrent (.inJoin x) := ⟨_, rfl⟩
  rw [← hs']
  have hcex := h.existing_cur
  have hplain := h.cur_plain hc
  have hsame : SameHeld s s' := hs' ▸ .trans .setState .setContext
  have hself : s'.thread s.threadCurrent =
      { s.thread s.threadCurrent with state := .wait, context := .inJoin x } := by
    simp [hs']
  have hother : ∀ t, t ≠ s.threadCurrent → s'.thread t = s.thread t := by
    intro t ht
    simp [hs', ht]
  have hjoin : ∀ t, (s'.thread t).join = (s.thread t).join := by
    intro t
    by_cases ht : t = s.threadCurrent
    · rw [ht, hself]
    · rw [hother t ht]
  have hzombie : ∀ t, (s'.thread t).state = .zombie ↔ (s.thread t).state = .zombie := by
    intro t
    by_cases ht : t = s.threadCurrent
    · rw [ht, hself]
      simp [hplain.2]
    · rw [hother t ht]
  have hsched : SchedInv M s' := by
    refine h.toSchedInv.change (by rw [hs']; rfl) (by rw [hs']; rfl) (by rw [hs']; rfl) ?_
    intro t ht
    by_cases htc : t = s.threadCurrent
    · refine .inr ?_
      rw [htc, hself]
      simp [Context.Idle]
    · exact .inl (hother t htc)
  refine ⟨hsched, h.toSlots.same hsame, h.toHeld.same hsame, ?_, h.toReleases.same hsame⟩
  constructor
  · intro t ht
    by_cases htc : t = s.threadCurrent
    · rw [htc, hself]
      exact .inr (.inr (.inr ⟨x, rfl⟩))
    · rw [hother t htc]
      exact h.contexts t ((hsame.existing t).mp ht)
  · intro t ht
    by_cases htc : t = s.threadCurrent
    · rw [htc, hself]
      simp
    · rw [hother t htc]
      exact h.zombie t ((hsame.existing t).mp ht)
  · intro t y ht hctx
    by_cases htc : t = s.threadCurrent
    · subst htc
      rw [hself, Context.inJoin.injEq] at hctx
      subst hctx
      simp only [hself, hjoin, ne_eq, hzombie]
      exact ⟨(hsame.existing x).mpr hx, hj, by simp, ha, fun hz => absurd hz hnz, fun _ => trivial⟩
    · rw [hother t htc] at hctx
      obtain ⟨hy, hjy, -, hay, hready, hwait⟩ := h.joiner t y ((hsame.existing t).mp ht) hctx
      simp only [hother t htc, hjoin, ne_eq, hzombie]
      exact ⟨(hsame.existing y).mpr hy, hjy, by simp, hay, hready, hwait⟩
  · intro y hy hay
    refine .inr ?_
    rcases h.awaited y ((hsame.existing y).mp hy) hay with hxy | ⟨t, ht, hctx⟩
    · rw [Option.some.injEq] at hxy
      subst hxy
      exact ⟨_, (hsame.existing _).mpr hcex, by rw [hself]⟩
    · have htc : t ≠ s.threadCurrent := by
        rintro rfl
        exact hplain.context.2 y hctx
      exact ⟨t, (hsame.existing t).mpr ht, by rw [hother t htc, hctx]⟩
  · intro y hy hay
    rw [hjoin]
    exact h.unawaited y ((hsame.existing y).mp hy) hay
  · intro t ht
    rw [h.exits t ((hsame.existing t).mp ht)]
    simp only [hzombie]
    by_cases htc : t = s.threadCurrent
    · rw [htc, hself]
    · rw [hother t htc]

/-- The elected thread has waited for `x`, which has exited. -/
theorem LifeInv.elect_join {th : Nat} (h : LifeInv M s₀ base s tr none)
    (hc : (s.thread s.threadCurrent).context ≠ .user) (hth : th < M.threadMax)
    (htab : s.threadTab th = some t) (hready : (s.thread t).state = .ready)
    (hctx : (s.thread t).context = .inJoin x) :
    LifeInv M s₀ base (s.elect th t) tr (some x) ∧ s.Existing M x ∧ x ≠ t ∧
      (s.thread x).state = .zombie := by
  have hex : s.Existing M t := ⟨th, hth, htab⟩
  obtain ⟨hx, hjx, -, hax, -, hwaitx⟩ := h.joiner t x hex hctx
  have hz : (s.thread x).state = .zombie := by
    by_contra hnz
    rw [hready] at hwaitx
    exact absurd (hwaitx hnz) (by simp)
  have hxt : x ≠ t := by
    rintro rfl
    rw [hready] at hz
    exact absurd hz (by simp)
  have hsame : SameHeld s (s.elect th t) := .elect
  have hjoin : ∀ u, ((s.elect th t).thread u).join = (s.thread u).join := by
    intro u
    by_cases hu : u = t
    · rw [hu, Sys.elect_self]
    · rw [Sys.elect_of_ne hu]
  have hzombie : ∀ u, ((s.elect th t).thread u).state = .zombie ↔ (s.thread u).state = .zombie := by
    intro u
    by_cases hu : u = t
    · rw [hu, Sys.elect_self, hready]
      simp
    · rw [Sys.elect_of_ne hu]
  refine ⟨⟨h.toSchedInv.elect hc hth htab, h.toSlots.same hsame, h.toHeld.same hsame, ?_,
    h.toReleases.same hsame⟩, hx, hxt, hz⟩
  constructor
  · intro u hu
    by_cases hut : u = t
    · rw [hut, Sys.elect_self]
      exact .inl rfl
    · rw [Sys.elect_of_ne hut]
      exact h.contexts u ((hsame.existing u).mp hu)
  · intro u hu
    by_cases hut : u = t
    · rw [hut, Sys.elect_self]
      simp
    · rw [Sys.elect_of_ne hut]
      exact h.zombie u ((hsame.existing u).mp hu)
  · intro u y hu hctx'
    have hut : u ≠ t := by
      rintro rfl
      rw [Sys.elect_self] at hctx'
      exact absurd hctx' (by simp)
    rw [Sys.elect_of_ne hut] at hctx'
    obtain ⟨hy, hjy, -, hay, hready', hwait⟩ := h.joiner u y ((hsame.existing u).mp hu) hctx'
    have hyx : x ≠ y := by
      rintro rfl
      rw [hjx, Option.some.injEq] at hjy
      exact hut hjy.symm
    simp only [Sys.elect_of_ne hut, hjoin, ne_eq, hzombie]
    exact ⟨(hsame.existing y).mpr hy, hjy, by simpa using hyx, hay, hready', hwait⟩
  · intro y hy hay
    obtain ⟨u, hu, hctx'⟩ := (h.awaited y ((hsame.existing y).mp hy) hay).resolve_left (by simp)
    by_cases hut : u = t
    · subst hut
      rw [hctx, Context.inJoin.injEq] at hctx'
      exact .inl (by rw [hctx'])
    · exact .inr ⟨u, (hsame.existing u).mpr hu, by rw [Sys.elect_of_ne hut, hctx']⟩
  · intro y hy hay
    rw [hjoin]
    exact h.unawaited y ((hsame.existing y).mp hy) hay
  · intro u hu
    rw [h.exits u ((hsame.existing u).mp hu)]
    simp only [hzombie]
    by_cases hut : u = t
    · rw [hut, Sys.elect_self]
    · rw [Sys.elect_of_ne hut]

/-! ## The end of a join -/

/-- A thread's place in the table is its `tid`. -/
theorem Slots.tab_tid (h : Slots M s₀ s tr) (ht : s.Existing M t) :
    (s.thread t).tid < M.threadMax ∧ s.threadTab (s.thread t).tid = some t := by
  obtain ⟨i, hi, hit⟩ := ht
  rw [h.tid i t hi hit]
  exact ⟨hi, hit⟩

/-- The stack and the page of a thread can be freed, and are then held by nobody. -/
theorem Held.free (h : Held M base s) (hx : s.Existing M x) :
    ∃ u k, freeUstack M.user (s.thread x).ustackB s.umem = some u ∧
      kfree M.kernel x s.kmem = some k ∧
      ∀ s' : Sys, s'.umem = u → s'.kmem = k → (∀ t, s'.Existing M t ↔ s.Existing M t ∧ t ≠ x) →
        (∀ t, (s'.thread t).ustackB = (s.thread t).ustackB) → Held M base s' := by
  obtain ⟨⟨live, kind, free, hinv, hpages, hothers⟩, ⟨stk, ufree, hustack, hstk⟩, hstack, hapart⟩ := h
  obtain ⟨e, he⟩ := hstack x hx
  obtain ⟨u, ufree', hfree, hustack'⟩ := hustack.free_spec ((hstk e).mpr ⟨x, hx, he⟩)
  obtain ⟨k, kind', free', hkfree, hinv', -⟩ := hinv.kfree_spec (hpages x hx).1
  refine ⟨u, k, he ▸ hfree, hkfree, ?_⟩
  intro s' hu hk hex hustackB
  constructor
  · refine ⟨_, kind', free', hk ▸ hinv', ?_, ?_⟩
    · intro t ht
      obtain ⟨ht, htx⟩ := (hex t).mp ht
      rw [Function.update_of_ne htx]
      exact hpages t ht
    · intro a ha
      by_cases hax : a = x
      · rw [hax, Function.update_self, (hpages x hx).2]
      · rw [Function.update_of_ne hax]
        exact hothers a fun hold => ha ((hex a).mpr ⟨hold, hax⟩)
  · refine ⟨_, ufree', hu ▸ hustack', fun d => ?_⟩
    rw [hstk]
    simp only [hex, hustackB]
    constructor
    · rintro ⟨⟨t, ht, htd⟩, hde⟩
      refine ⟨t, ⟨ht, ?_⟩, htd⟩
      rintro rfl
      omega
    · rintro ⟨t, ⟨ht, htx⟩, htd⟩
      refine ⟨⟨t, ht, htd⟩, ?_⟩
      rintro rfl
      exact htx (hapart t x ht hx (htd.trans he.symm))
  · intro t ht
    rw [hustackB]
    exact hstack t ((hex t).mp ht).1
  · intro t v ht hv htv
    rw [hustackB, hustackB] at htv
    exact hapart t v ((hex t).mp ht).1 ((hex v).mp hv).1 htv

/-- The events of the end of a join that waited for `x`. -/
def joinEvents (s : Sys) (x : Nat) : List Event :=
  [.joined s.threadCurrent x (s.thread x).retval, .pageFreed x, .slotFreed x (s.thread x).tid,
    .stackFreed x (s.thread x).ustackB]

theorem life_joinEvents {y : Nat} : life y (joinEvents s x ++ tr) = joinEvents s x ++ life y tr := by
  simp [joinEvents, life, Event.creates]

theorem freed_joinEvents {y : Nat} : freed y (joinEvents s x ++ tr) =
    if y = x then .pageFreed x :: .slotFreed x (s.thread x).tid ::
      .stackFreed x (s.thread x).ustackB :: freed x tr
    else freed y tr := by
  unfold freed
  rw [life_joinEvents, List.filter_append]
  by_cases h : y = x
  · rw [h, if_pos rfl]
    simp [joinEvents, Event.frees]
  · rw [if_neg h]
    simp [joinEvents, Event.frees, Ne.symm h]

theorem given_joinEvents {y : Nat} : given s₀ y (joinEvents s x ++ tr) = given s₀ y tr := rfl

theorem awaited_joinEvents {y : Nat} : Awaited y (joinEvents s x ++ tr) ↔ Awaited y tr := by
  unfold Awaited
  rw [life_joinEvents]
  simp [joinEvents]

theorem exitValues_joinEvents {y : Nat} :
    exitValues y (joinEvents s x ++ tr) = exitValues y tr := by
  unfold exitValues
  rw [life_joinEvents]
  rfl

/-- `joinEnd` of a thread whose stack and page can be freed. -/
theorem joinEnd_eq {u : Umem} {k : Kmem}
    (hu : freeUstack M.user (s.thread x).ustackB s.umem = some u)
    (hk : kfree M.kernel x s.kmem = some k) :
    Kernel.joinEnd M x s = some ({ s.setState x .dead with
      umem := u, threadTab := Function.update s.threadTab (s.thread x).tid none, kmem := k },
      joinEvents s x) := by
  have hu' : freeUstack M.user (s.thread x).ustackB (s.setState x .dead).umem = some u := hu
  have hk' : kfree M.kernel x (s.setState x .dead).kmem = some k := hk
  simp only [Kernel.joinEnd, threadDestroy, schedUnlink, Sys.setState_self, ne_eq,
    not_true_eq_false, if_false, Option.bind_eq_bind, hu', hk', Option.bind_some]
  rfl

/-- The threads of the table when the place of thread `x` has been emptied. -/
theorem existing_unlink {i : Nat} (hi : s.threadTab i = some x)
    (honly : ∀ j, j < M.threadMax → s.threadTab j = some x → j = i)
    (htab : s'.threadTab = Function.update s.threadTab i none) (t : Nat) :
    s'.Existing M t ↔ s.Existing M t ∧ t ≠ x := by
  unfold Sys.Existing
  rw [htab]
  constructor
  · rintro ⟨j, hj, hjt⟩
    by_cases hji : j = i
    · rw [hji, Function.update_self] at hjt
      exact absurd hjt (by simp)
    · rw [Function.update_of_ne hji] at hjt
      refine ⟨⟨j, hj, hjt⟩, ?_⟩
      rintro rfl
      exact hji (honly j hj hjt)
  · rintro ⟨⟨j, hj, hjt⟩, htx⟩
    refine ⟨j, hj, ?_⟩
    rw [Function.update_of_ne, hjt]
    rintro rfl
    rw [hi, Option.some.injEq] at hjt
    exact htx hjt.symm

/-- The end of a join that waited for `x`: all that `x` had is freed. -/
theorem LifeInv.joinEnd (h : LifeInv M s₀ base s tr (some x)) (hx : s.Existing M x)
    (hxc : x ≠ s.threadCurrent) (hz : (s.thread x).state = .zombie) :
    ∃ s', joinEnd M x s = some (s', joinEvents s x) ∧
      LifeInv M s₀ base s' (joinEvents s x ++ tr) none ∧ s'.threadCurrent = s.threadCurrent ∧
      ¬ s'.Existing M x := by
  obtain ⟨u, k, hu, hk, hheld⟩ := h.toHeld.free hx
  obtain ⟨htidlt, htid⟩ := h.toSlots.tab_tid hx
  obtain ⟨s', hs'⟩ : ∃ s', s' = { s.setState x .dead with
    umem := u, threadTab := Function.update s.threadTab (s.thread x).tid none, kmem := k } :=
    ⟨_, rfl⟩
  have hend : Kernel.joinEnd M x s = some (s', joinEvents s x) := hs' ▸ joinEnd_eq hu hk
  have hself : s'.thread x = { s.thread x with state := .dead } := by
    rw [hs']
    exact Sys.setState_self
  have hother : ∀ t, t ≠ x → s'.thread t = s.thread t := by
    intro t ht
    rw [hs']
    exact Sys.setState_of_ne ht
  have htab : s'.threadTab = Function.update s.threadTab (s.thread x).tid none := by rw [hs']
  have hex := existing_unlink htid (fun j hj hjx => (h.tid j x hj hjx).symm) htab
  have hcur : s'.threadCurrent = s.threadCurrent := by rw [hs']; rfl
  have hidx : s'.threadCurrentIdx = s.threadCurrentIdx := by rw [hs']; rfl
  refine ⟨s', hend, ⟨?_, ?_, ?_, ?_, ?_⟩, hcur, fun he => ((hex x).mp he).2 rfl⟩
  · refine h.toSchedInv.retable htab ?_ hidx hcur fun t ht => ?_
    · rw [htid, ne_eq, Option.some.injEq]
      exact hxc
    · obtain ⟨ht, htx⟩ := (hex t).mp ht
      exact .inl ⟨ht, hother t htx⟩
  · constructor
    · intro i t hi hit
      have htx := ((hex t).mp ⟨i, hi, hit⟩).2
      rw [hother t htx]
      refine h.tid i t hi ?_
      by_cases hix : i = (s.thread x).tid
      · rw [htab, hix, Function.update_self] at hit
        exact absurd hit (by simp)
      · rwa [htab, Function.update_of_ne hix] at hit
    · intro t
      rw [hex, ← h.living t, and_comm]
      rfl
    · intro t ht
      obtain ⟨ht, htx⟩ := (hex t).mp ht
      rw [hother t htx, given_joinEvents]
      exact h.given t ht
  · refine hheld s' (by rw [hs']) (by rw [hs']) hex fun t => ?_
    by_cases htx : t = x
    · rw [htx, hself]
    · rw [hother t htx]
  · constructor
    · intro t ht
      obtain ⟨ht, htx⟩ := (hex t).mp ht
      rw [hother t htx]
      exact h.contexts t ht
    · intro t ht
      obtain ⟨ht, htx⟩ := (hex t).mp ht
      rw [hother t htx]
      exact h.zombie t ht
    · intro t y ht hctx
      obtain ⟨ht, htx⟩ := (hex t).mp ht
      rw [hother t htx] at hctx ⊢
      obtain ⟨hy, hjy, hw, hay, hready, hwait⟩ := h.joiner t y ht hctx
      have hyx : y ≠ x := fun e => hw (by rw [e])
      rw [hother y hyx]
      exact ⟨(hex y).mpr ⟨hy, hyx⟩, hjy, by simp, awaited_joinEvents.mpr hay, hready, hwait⟩
    · intro y hy hay
      obtain ⟨hy, hyx⟩ := (hex y).mp hy
      refine .inr ?_
      rcases h.awaited y hy (awaited_joinEvents.mp hay) with hw | ⟨t, ht, hctx⟩
      · exact absurd (Option.some.inj hw).symm hyx
      · have htx : t ≠ x := by
          -- an exited thread waits for nobody
          rintro rfl
          rw [(h.zombie t ht).mp hz] at hctx
          exact absurd hctx (by simp)
        exact ⟨t, (hex t).mpr ⟨ht, htx⟩, by rw [hother t htx, hctx]⟩
    · intro y hy hay
      obtain ⟨hy, hyx⟩ := (hex y).mp hy
      rw [hother y hyx]
      exact h.unawaited y hy fun hold => hay (awaited_joinEvents.mpr hold)
    · intro t ht
      obtain ⟨ht, htx⟩ := (hex t).mp ht
      rw [hother t htx, exitValues_joinEvents]
      exact h.exits t ht
  · constructor
    · intro y hy
      obtain ⟨hy, hyx⟩ := (hex y).mp hy
      rw [freed_joinEvents, if_neg hyx]
      exact h.kept y hy
    · intro c y v hj
      rw [life_joinEvents] at hj
      rw [freed_joinEvents, allFreed, given_joinEvents]
      by_cases hyx : y = x
      · subst hyx
        rw [if_pos rfl, h.kept y hx, h.given y hx]
        exact ⟨fun he => ((hex y).mp he).2 rfl, rfl⟩
      · rw [if_neg hyx]
        obtain ⟨hold, hall⟩ := h.joined c y v (by simpa [joinEvents, hyx] using hj)
        exact ⟨fun he => hold ((hex y).mp he).1, hall⟩
    · refine ⟨?_, by simp, by simp, by simp, h.joins⟩
      intro c y v he
      rw [Event.joined.injEq] at he
      obtain ⟨-, rfl, rfl⟩ := he
      have hval := h.exits x hx
      rw [hz, if_pos rfl] at hval
      exact hval

/-! ## Creations -/

/-- The address of a thread is not 0. -/
theorem Held.ne_zero (h : Held M base s) (ht : s.Existing M t) : t ≠ 0 := by
  obtain ⟨live, kind, free, hinv, hpages, -⟩ := h.pages
  obtain ⟨p, k, hpiece, -⟩ := hinv.live_piece t pageSize (hpages t ht).1
  have hin := hpiece.in_heap
  have hslab := M.kernel.slab_le
  omega

/-- `thread_create`, when it returns, has made a `READY` thread at a free page and
put it at a free place of the table. -/
theorem threadCreate_spec {r : Errno} (h : Held M base s)
    (hcall : threadCreate M s = some (r, s', es)) :
    ∃ x tid top, r = .success ∧ es = [.created x tid top] ∧ ¬ s.Existing M x ∧
      tid < M.threadMax ∧ s.threadTab tid = none ∧ (∀ j < tid, s.threadTab j ≠ none) ∧
      s'.threadTab = Function.update s.threadTab tid (some x) ∧
      s'.threadCurrentIdx = s.threadCurrentIdx ∧
      s'.threadCurrent = (if s.threadCurrent = 0 then x else s.threadCurrent) ∧
      s'.thread = Function.update s.thread x
        { s.thread x with
          ustackB := top, state := .ready, retval := 0, join := none, tid := tid,
          context := .start } ∧
      ((∀ t, s'.Existing M t ↔ t = x ∨ s.Existing M t) → Held M base s') := by
  obtain ⟨⟨live, kind, free, hinv, hpages, hothers⟩, ⟨stk, ufree, hustack, hstk⟩, hstack, hapart⟩ := h
  unfold threadCreate at hcall
  rcases hinv.kmalloc_page with ⟨-, hnone⟩ | ⟨p, k, rest, -, -, hdead, hk, hinv', -, -⟩
  · rw [hnone] at hcall
    exact absurd hcall (by simp)
  obtain ⟨x, hx⟩ : ∃ x, x = M.kernel.pageAddr p := ⟨_, rfl⟩
  rw [← hx] at hk hdead hinv'
  have hx0 : x ≠ 0 := hx ▸ pageAddr_ne_zero
  simp only [hk, Option.bind_eq_bind, Option.bind_some, hx0, if_false,
    Option.bind_eq_some_iff] at hcall
  obtain ⟨⟨top, u⟩, hu, s₂, hinsert, hres⟩ := hcall
  obtain ⟨e, ufree', htop, hdeade, hustack'⟩ := hustack.malloc_spec hu
  unfold schedInsert at hinsert
  obtain ⟨tid, htid, hinsert⟩ := Option.bind_eq_some_iff.mp hinsert
  have htouch : Touches wcells [.thread x] _ (listInit wcells
      (Sys.modThread { s with kmem := k, umem := u } x fun th =>
        { th with ustackB := top, state := .ready, retval := 0, join := none, context := .start })
      (.thread x)) := init_touches
  rw [Sys.of_touches htouch] at htid hinsert
  obtain ⟨hfree, hlt, hfirst⟩ := List.find?_range_eq_some.mp htid
  simp only [Option.isNone_iff_eq_none, List.mem_range] at hfree hlt
  have hfirst' : ∀ j < tid, s.threadTab j ≠ none := by
    intro j hj
    have hfull := hfirst j hj
    simp only [Bool.not_eq_true', Option.isNone_eq_false_iff, Option.isSome_iff_ne_none] at hfull
    exact hfull
  have hs₂ : s₂.threadCurrent = (if s.threadCurrent = 0 then x else s.threadCurrent) ∧
      s₂.threadCurrentIdx = s.threadCurrentIdx ∧
      s₂.threadTab = Function.update s.threadTab tid (some x) ∧ s₂.umem = u ∧ s₂.kmem = k ∧
      s₂.thread = Function.update s.thread x
        { s.thread x with
          ustackB := top, state := .ready, retval := 0, join := none, tid := tid,
          context := .start } := by
    simp only [Sys.modThread, Option.some.injEq, Function.update_self,
      Function.update_idem] at hinsert
    rw [← hinsert]
    by_cases hzero : s.threadCurrent = 0
    · simp only [hzero, if_true]
      trivial
    · simp only [hzero, if_false]
      trivial
  obtain ⟨h1, h2, h3, h4, h5, h6⟩ := hs₂
  simp only [Option.some.injEq, Prod.mk.injEq] at hres
  obtain ⟨rfl, rfl, rfl⟩ := hres
  have hnew : ¬ s.Existing M x := by
    intro hex
    rw [(hpages x hex).1] at hdead
    exact absurd hdead (by simp)
  have hself : (s₂.thread x).ustackB = top := by
    rw [h6, Function.update_self]
  have hother : ∀ t, s.Existing M t → (s₂.thread t).ustackB = (s.thread t).ustackB := by
    intro t ht
    rw [h6, Function.update_of_ne]
    rintro rfl
    exact hnew ht
  have hnotop : ∀ t, s.Existing M t → (s.thread t).ustackB ≠ top := by
    intro t ht he
    exact hdeade ((hstk e).mpr ⟨t, ht, he.trans htop⟩)
  refine ⟨x, tid, top, rfl, by rw [h6, Function.update_self], hnew, hlt, hfree, hfirst', h3, h2,
    h1, h6, ?_⟩
  intro hex
  constructor
  · refine ⟨_, _, _, h5 ▸ hinv', ?_, ?_⟩
    · intro t ht
      rcases (hex t).mp ht with rfl | ht
      · rw [Function.update_self]
        exact ⟨rfl, (hothers t hnew).symm.trans hdead⟩
      · rw [Function.update_of_ne (fun he : t = x => hnew (he ▸ ht))]
        exact hpages t ht
    · intro a ha
      have hax : a ≠ x := fun e => ha ((hex a).mpr (.inl e))
      rw [Function.update_of_ne hax]
      exact hothers a fun hold => ha ((hex a).mpr (.inr hold))
  · refine ⟨_, _, h4 ▸ hustack', fun d => ?_⟩
    rw [hstk]
    constructor
    · rintro (rfl | ⟨t, ht, hd⟩)
      · exact ⟨x, (hex x).mpr (.inl rfl), hself.trans htop⟩
      · exact ⟨t, (hex t).mpr (.inr ht), (hother t ht).trans hd⟩
    · rintro ⟨t, ht, hd⟩
      rcases (hex t).mp ht with rfl | ht
      · rw [hself, htop] at hd
        exact .inl (by omega)
      · exact .inr ⟨t, ht, (hother t ht).symm.trans hd⟩
  · intro t ht
    rcases (hex t).mp ht with rfl | ht
    · exact ⟨e, hself.trans htop⟩
    · rw [hother t ht]
      exact hstack t ht
  · intro t v ht hv htv
    rcases (hex t).mp ht with rfl | ht <;> rcases (hex v).mp hv with rfl | hv
    · rfl
    · rw [hself, hother v hv] at htv
      exact absurd htv.symm (hnotop v hv)
    · rw [hself, hother t ht] at htv
      exact absurd htv (hnotop t ht)
    · rw [hother t ht, hother v hv] at htv
      exact hapart t v ht hv htv

section
variable {y tid top : Nat}

theorem life_created_ne (h : y ≠ x) :
    life y (.created x tid top :: tr) = .created x tid top :: life y tr :=
  life_cons_of_not_creates (by simp [Event.creates, Ne.symm h])

theorem freed_created : freed y (.created x tid top :: tr) = if y = x then [] else freed y tr := by
  unfold freed
  split_ifs with h
  · rw [h, life_created]
    rfl
  · rw [life_created_ne h]
    rfl

theorem exitValues_created :
    exitValues y (.created x tid top :: tr) = if y = x then [] else exitValues y tr := by
  unfold exitValues
  split_ifs with h
  · rw [h, life_created]
    rfl
  · rw [life_created_ne h]
    rfl

theorem awaited_created : Awaited y (.created x tid top :: tr) ↔ y ≠ x ∧ Awaited y tr := by
  unfold Awaited
  by_cases h : y = x
  · rw [h, life_created]
    simp
  · rw [life_created_ne h]
    simp [h]

end

theorem existing_insert {x i : Nat} (hi : i < M.threadMax) (hfree : s.threadTab i = none)
    (htab : s'.threadTab = Function.update s.threadTab i (some x)) (t : Nat) :
    s'.Existing M t ↔ t = x ∨ s.Existing M t := by
  unfold Sys.Existing
  rw [htab]
  constructor
  · rintro ⟨j, hj, hjt⟩
    by_cases hji : j = i
    · rw [hji, Function.update_self, Option.some.injEq] at hjt
      exact .inl hjt.symm
    · rw [Function.update_of_ne hji] at hjt
      exact .inr ⟨j, hj, hjt⟩
  · rintro (rfl | ⟨j, hj, hjt⟩)
    · exact ⟨i, hi, Function.update_self ..⟩
    · refine ⟨j, hj, ?_⟩
      rw [Function.update_of_ne, hjt]
      rintro rfl
      rw [hfree] at hjt
      exact absurd hjt (by simp)

theorem LifeInv.create {r : Errno} (h : LifeInv M s₀ base s tr none)
    (hcall : threadCreate M s = some (r, s', es)) : LifeInv M s₀ base s' (es ++ tr) none := by
  have hcur0 := h.toHeld.ne_zero h.existing_cur
  obtain ⟨x, tid, top, -, rfl, hnew, htidlt, hfree, -, htab, hidx, hcur, hthread,
    hheld⟩ :=
    threadCreate_spec h.toHeld hcall
  rw [if_neg hcur0] at hcur
  have hself : s'.thread x = { s.thread x with
      ustackB := top, state := .ready, retval := 0, join := none, tid := tid,
      context := .start } := by
    rw [hthread, Function.update_self]
  have hother : ∀ t, t ≠ x → s'.thread t = s.thread t := by
    intro t ht
    rw [hthread, Function.update_of_ne ht]
  have hex : ∀ t, s'.Existing M t ↔ t = x ∨ s.Existing M t := existing_insert htidlt hfree htab
  have hold : ∀ t, s.Existing M t → t ≠ x := by
    rintro t ht rfl
    exact hnew ht
  refine ⟨?_, ?_, hheld hex, ?_, ?_⟩
  · refine h.toSchedInv.retable htab ?_ hidx hcur fun t ht => ?_
    · rw [hfree]
      simp
    · rcases (hex t).mp ht with rfl | ht
      · rw [hself]
        exact .inr ⟨by simp, fun _ => rfl⟩
      · exact .inl ⟨ht, hother t (hold t ht)⟩
  · constructor
    · intro i t hi hit
      by_cases hit' : i = tid
      · rw [htab, hit', Function.update_self, Option.some.injEq] at hit
        rw [← hit, hself, hit']
      · rw [htab, Function.update_of_ne hit'] at hit
        rw [hother t (hold t ⟨i, hi, hit⟩)]
        exact h.tid i t hi hit
    · intro t
      rw [hex, ← h.living t]
      rfl
    · intro t ht
      rcases (hex t).mp ht with rfl | ht
      · simp [given, hself]
      · have htx := hold t ht
        simp only [List.cons_append, List.nil_append, given, Ne.symm htx, if_false,
          hother t htx]
        exact h.given t ht
  · constructor
    · intro t ht
      rcases (hex t).mp ht with rfl | ht
      · rw [hself]
        exact .inr (.inl (.inl rfl))
      · rw [hother t (hold t ht)]
        exact h.contexts t ht
    · intro t ht
      rcases (hex t).mp ht with rfl | ht
      · rw [hself]
        simp
      · rw [hother t (hold t ht)]
        exact h.zombie t ht
    · intro t y ht hctx
      rcases (hex t).mp ht with rfl | ht
      · rw [hself] at hctx
        exact absurd hctx (by simp)
      · rw [hother t (hold t ht)] at hctx ⊢
        obtain ⟨hy, hjy, hw, hay, hready, hwait⟩ := h.joiner t y ht hctx
        rw [hother y (hold y hy)]
        exact ⟨(hex y).mpr (.inr hy), hjy, hw, awaited_created.mpr ⟨hold y hy, hay⟩, hready, hwait⟩
    · intro y hy hay
      obtain ⟨hyx, hay⟩ := awaited_created.mp hay
      refine (h.awaited y (((hex y).mp hy).resolve_left hyx) hay).imp id ?_
      rintro ⟨t, ht, hctx⟩
      exact ⟨t, (hex t).mpr (.inr ht), by rw [hother t (hold t ht), hctx]⟩
    · intro y hy hay
      rcases (hex y).mp hy with rfl | hy
      · rw [hself]
      · rw [hother y (hold y hy)]
        exact h.unawaited y hy fun ha => hay (awaited_created.mpr ⟨hold y hy, ha⟩)
    · intro t ht
      rw [List.cons_append, List.nil_append, exitValues_created]
      rcases (hex t).mp ht with rfl | ht
      · rw [hself]
        simp
      · rw [if_neg (hold t ht), hother t (hold t ht)]
        exact h.exits t ht
  · constructor
    · intro y hy
      rw [List.cons_append, List.nil_append, freed_created]
      rcases (hex y).mp hy with rfl | hy
      · rw [if_pos rfl]
      · rw [if_neg (hold y hy)]
        exact h.kept y hy
    · intro c y v hj
      rw [List.cons_append, List.nil_append] at hj
      by_cases hyx : y = x
      · rw [hyx, life_created] at hj
        exact absurd hj (by simp)
      · rw [life_created_ne hyx, List.mem_cons] at hj
        obtain ⟨hnot, hall⟩ := h.joined c y v (hj.resolve_left (by simp))
        refine ⟨fun he => hnot (((hex y).mp he).resolve_left hyx), ?_⟩
        simp only [List.cons_append, List.nil_append, freed_created, hyx, if_false, hall, allFreed,
          given, Ne.symm hyx]
    · exact ⟨by simp, h.joins⟩

/-! ## Steps and runs -/

/-- What a step may destroy: an exited thread, which is gone from the table and is
not the current one. -/
def Destroys (M : Machine) (s s' : Sys) (es : List Event) : Prop :=
  ∀ x, .pageFreed x ∈ es → (s.thread x).state = .zombie ∧ x ≠ s'.threadCurrent ∧
    ¬ s'.Existing M x

theorem destroys_join {r : Sys} (hz : (r.thread x).state = .zombie) (hx : x ≠ s'.threadCurrent)
    (hgone : ¬ s'.Existing M x) (hes : ∀ e ∈ es, ∀ y, e ≠ .pageFreed y) :
    Destroys M r s' (joinEvents s x ++ es) := by
  intro y hy
  obtain rfl : y = x := by
    rcases List.mem_append.mp hy with hy | hy
    · simpa [joinEvents] using hy
    · exact absurd rfl (hes _ hy y)
  exact ⟨hz, hx, hgone⟩

/-- `thread_join` never panics: it waits, or it returns and has destroyed the
thread. -/
theorem LifeInv.join (h : LifeInv M s₀ base s tr none)
    (hc : (s.thread s.threadCurrent).context = .user) (hx : s.Existing M x)
    (hxc : x ≠ s.threadCurrent) (ha : ¬ Awaited x tr) :
    ∃ r s' es, threadJoin M (some x) s = some (r, s', es) ∧
      LifeInv M s₀ base s' (es ++ tr) none ∧ Destroys M s s' es := by
  have hpend := h.joinCall hx hxc ha
  obtain ⟨s₁, hs₁⟩ : ∃ s₁, s₁ = s.modThread x fun th => { th with join := some s.threadCurrent } :=
    ⟨_, rfl⟩
  rw [← hs₁] at hpend
  have hself : s₁.thread x = { s.thread x with join := some s.threadCurrent } := by
    rw [hs₁, Sys.modThread_self]
  have hstate : (s₁.thread x).state = (s.thread x).state := by rw [hself]
  have hx₁ : s₁.Existing M x := by
    rw [hs₁]
    exact hx
  have hcur₁ : s₁.threadCurrent = s.threadCurrent := by rw [hs₁]; rfl
  simp only [threadJoin, ← hs₁]
  by_cases hz : (s₁.thread x).state = .zombie
  · obtain ⟨s₂, hend, hinv, hcur, hgone⟩ := hpend.joinEnd hx₁ (hcur₁ ▸ hxc) hz
    refine ⟨some .success, s₂, joinEvents s₁ x ++ [.joinCalled s.threadCurrent x], ?_, ?_, ?_⟩
    · rw [if_neg (not_not.mpr hz), hend]
      rfl
    · rwa [List.append_assoc]
    · refine destroys_join (hstate ▸ hz) (by rw [hcur, hcur₁]; exact hxc) hgone ?_
      rintro e he y rfl
      simp at he
  · refine ⟨_, _, _, if_pos hz, ?_, fun y hy => by simp at hy⟩
    have hcs : s₁.thread s.threadCurrent = s.thread s.threadCurrent := by
      rw [hs₁, Sys.modThread_of_ne (Ne.symm hxc)]
    rw [← hcur₁] at hpend ⊢
    exact hpend.joinWait hx₁ (by rw [hcur₁, hcs, hc]) (by rw [hself, hcur₁])
      (awaited_joinCalled.mpr (.inl rfl)) hz

theorem LifeInv.call {c : Call} {r : Option Errno} (h : LifeInv M s₀ base s tr none)
    (hc : (s.thread s.threadCurrent).context = .user) (hok : LifeCall M s tr c)
    (hcall : doCall M c s = some (r, s', es)) :
    LifeInv M s₀ base s' (es ++ tr) none ∧ Destroys M s s' es := by
  cases c with
  | create =>
    simp only [doCall, Option.map_eq_some_iff, Prod.mk.injEq] at hcall
    obtain ⟨⟨e, s₁, es₁⟩, hcreate, -, rfl, rfl⟩ := hcall
    refine ⟨h.create hcreate, ?_⟩
    obtain ⟨x, tid, top, -, rfl, -⟩ := threadCreate_spec h.toHeld hcreate
    exact fun y hy => by simp at hy
  | yield =>
    simp only [doCall, Option.some.injEq, Prod.mk.injEq] at hcall
    obtain ⟨-, rfl, rfl⟩ := hcall
    exact ⟨h.yield hc, fun y hy => by simp at hy⟩
  | exit v =>
    simp only [doCall, Option.some.injEq, Prod.mk.injEq] at hcall
    obtain ⟨-, hexit⟩ := hcall
    have hs' : s' = (threadExit v s).1 := by rw [hexit]
    have hes : es = [.exited s.threadCurrent v] := (congrArg Prod.snd hexit).symm
    subst hs' hes
    exact ⟨h.exit hc, fun y hy => by simp at hy⟩
  | join x =>
    cases x with
    | none =>
      simp only [doCall, threadJoin, Option.some.injEq, Prod.mk.injEq] at hcall
      obtain ⟨-, rfl, rfl⟩ := hcall
      exact ⟨h, fun y hy => by simp at hy⟩
    | some x =>
      obtain ⟨hx, hxc, ha⟩ := hok
      obtain ⟨r', s₁, es₁, hjoin, hinv, hdest⟩ := h.join hc hx hxc ha
      rw [doCall, hjoin, Option.some.injEq, Prod.mk.injEq, Prod.mk.injEq] at hcall
      obtain ⟨-, rfl, rfl⟩ := hcall
      exact ⟨hinv, hdest⟩
  | lock m => exact hok.elim
  | unlock m => exact hok.elim
  | barrierWait b => exact hok.elim

/-- A switch always ends the call of the elected thread. -/
theorem LifeInv.switch {s₁ : Sys} (h : LifeInv M s₀ base s tr none)
    (hc : (s.thread s.threadCurrent).context ≠ .user) (hsw : schedSwitch M s = some s₁) :
    ∃ s' es, resume M s₁ = some (s', es) ∧ LifeInv M s₀ base s' (es ++ tr) none ∧
      Destroys M s s' es := by
  obtain ⟨th, t, hth, htab, hready, hend⟩ := schedSwitch_spec h.cur hsw
  have hex : s.Existing M t := ⟨th, hth, htab⟩
  rcases h.contexts t hex with hctx | hctx | hctx | ⟨x, hctx⟩
  · exact absurd hctx (h.no_user hc hex)
  · refine ⟨s.elect th t, [], ?_, h.elect_plain hc hth htab hready hctx, fun y hy => by simp at hy⟩
    rcases hctx with hctx | hctx <;> rw [hctx] at hend <;> exact hend
  · have hz := (h.zombie t hex).mpr hctx
    rw [hready] at hz
    exact absurd hz (by simp)
  · rw [hctx] at hend
    obtain ⟨hpend, hx, hxt, hz⟩ := h.elect_join hc hth htab hready hctx
    have hzx : ((s.elect th t).thread x).state = .zombie := by rw [Sys.elect_of_ne hxt, hz]
    obtain ⟨s', hjoin, hinv, hcur, hgone⟩ := hpend.joinEnd hx hxt hzx
    refine ⟨s', _, hend.trans hjoin, hinv, ?_⟩
    have hdest : Destroys M s s' (joinEvents (s.elect th t) x ++ []) :=
      destroys_join hz (by rw [hcur]; exact hxt) hgone (by simp)
    rwa [List.append_nil] at hdest


end

/-- The start: one thread runs, the others are ready, none has been joined. -/
structure LifeStart (M : Machine) (base : Live) (s : Sys) : Prop
    extends ThreadsReady M s, Held M base s where
  tid : ∀ i t, i < M.threadMax → s.threadTab i = some t → (s.thread t).tid = i
  unjoined : ∀ t, s.Existing M t → (s.thread t).join = none

/-- What holds of the threads in a state after the events `tr`. -/
structure LifeSafe (M : Machine) (s₀ : Sys) (base : Live) (s : Sys) (tr : List Event) : Prop where
  joins : JoinsOk tr
  kept : ∀ x, Living M s₀ x tr → freed x tr = []
  released : ∀ c x v, .joined c x v ∈ life x tr → ¬ Living M s₀ x tr ∧
    freed x tr = allFreed s₀ x tr
  slots : ∀ i t, i < M.threadMax → (s.threadTab i = some t ↔
    Living M s₀ t tr ∧ (s.thread t).tid = i)
  tab : ∀ t, Living M s₀ t tr → s.threadTab (s.thread t).tid = some t
  pages : ∃ live kind free, Inv M.kernel s.kmem live kind free ∧
    (∀ t, Living M s₀ t tr → live t = some pageSize) ∧
    ∀ a, ¬ Living M s₀ a tr → live a = base a
  ustacks : ∃ live free, UstackInv M.user s.umem live free ∧
    (∀ e, live e ↔ ∃ t, Living M s₀ t tr ∧ (s.thread t).ustackB = e + (ustackSize - 4)) ∧
    ∀ t u, Living M s₀ t tr → Living M s₀ u tr →
      (s.thread t).ustackB = (s.thread u).ustackB → t = u
  running : ∀ t, Living M s₀ t tr → (s.thread t).state = .running → t = s.threadCurrent
  destroys : ∀ c es s', (∀ call ∈ c, LifeCall M s tr call) → Step M s c es s' → Destroys M s s' es
  join_returns : ∀ x, (s.thread s.threadCurrent).context = .user → LifeCall M s tr (.join (some x)) →
    (doCall M (.join (some x)) s).isSome
  switch_returns : ∀ s₁, (s.thread s.threadCurrent).context ≠ .user → schedSwitch M s = some s₁ →
    (resume M s₁).isSome

section
variable {M : Machine} {s₀ s s' : Sys} {base : Live} {tr es : List Event}

theorem lifeInv_start (h : LifeStart M base s₀) : LifeInv M s₀ base s₀ [] none := by
  have hplain : ∀ t, s₀.Existing M t → (s₀.thread t).Plain := by
    intro t ht
    refine ⟨h.context ht, ?_⟩
    by_cases htc : t = s₀.threadCurrent
    · rw [htc, h.running.1]
      simp
    · rw [(h.others t ht htc).1]
      simp
  refine ⟨h.schedInv, ⟨h.tid, fun _ => Iff.rfl, fun _ _ => rfl⟩, h.toHeld, ?_,
    ⟨fun _ _ => rfl, fun _ _ _ hj => absurd hj (by simp [life]), trivial⟩⟩
  constructor
  · exact fun t ht => (h.context ht).imp id .inl
  · intro t ht
    simp [(hplain t ht).2, (hplain t ht).context.1]
  · intro t x ht hctx
    exact absurd hctx ((hplain t ht).context.2 x)
  · rintro x - ⟨c, hc⟩
    exact absurd hc (by simp [life])
  · exact fun x hx _ => h.unjoined x hx
  · intro t ht
    rw [if_neg (hplain t ht).2]
    rfl

theorem LifeInv.step {c : Option Call} (h : LifeInv M s₀ base s tr none)
    (hok : ∀ call ∈ c, LifeCall M s tr call) (hstep : Step M s c es s') :
    LifeInv M s₀ base s' (es ++ tr) none ∧ Destroys M s s' es := by
  cases hstep with
  | call hc hcall => exact h.call hc (hok _ rfl) hcall
  | switch hc hsw hres =>
    obtain ⟨s₂, es₂, hres', hinv, hdest⟩ := h.switch hc hsw
    rw [hres, Option.some.injEq, Prod.mk.injEq] at hres'
    obtain ⟨rfl, rfl⟩ := hres'
    exact ⟨hinv, hdest⟩

theorem LifeInv.safe (h : LifeInv M s₀ base s tr none) : LifeSafe M s₀ base s tr := by
  constructor
  · exact h.joins
  · intro x hx
    exact h.kept x ((h.living x).mp hx)
  · intro c x v hj
    rw [h.living]
    exact h.joined c x v hj
  · intro i t hi
    rw [h.living]
    constructor
    · intro hit
      exact ⟨⟨i, hi, hit⟩, h.tid i t hi hit⟩
    · rintro ⟨ht, rfl⟩
      exact (h.toSlots.tab_tid ht).2
  · intro t ht
    exact (h.toSlots.tab_tid ((h.living t).mp ht)).2
  · obtain ⟨live, kind, free, hinv, hpages, hothers⟩ := h.pages
    simp only [h.living]
    exact ⟨live, kind, free, hinv, fun t ht => (hpages t ht).1, hothers⟩
  · obtain ⟨live, free, hinv, hlive⟩ := h.ustacks
    simp only [h.living]
    exact ⟨live, free, hinv, hlive, h.apart⟩
  · intro t ht hrun
    have ht := (h.living t).mp ht
    rcases h.contexts t ht with hctx | hctx | hctx | ⟨x, hctx⟩
    · exact (h.user t ht hctx).1
    · rw [h.idle t ht hctx] at hrun
      exact absurd hrun (by simp)
    · rw [(h.zombie t ht).mpr hctx] at hrun
      exact absurd hrun (by simp)
    · obtain ⟨-, -, -, -, hready, hwait⟩ := h.joiner t x ht hctx
      by_cases hz : (s.thread x).state = .zombie
      · rw [hready hz] at hrun
        exact absurd hrun (by simp)
      · rw [hwait hz] at hrun
        exact absurd hrun (by simp)
  · intro c es s' hok hstep
    exact (h.step hok hstep).2
  · rintro x hc ⟨hx, hxc, ha⟩
    obtain ⟨r, s', es, hjoin, -⟩ := h.join hc hx hxc ha
    rw [doCall, hjoin]
    rfl
  · intro s₁ hc hsw
    obtain ⟨s', es, hres, -⟩ := h.switch hc hsw
    rw [hres]
    rfl

end

/-- In every run of creations, yields, exits and joins, in which each thread is
joined at most once and by another one, a join returns the value of the exit of its
thread, all that a thread has got is freed once, and no thread is destroyed that may
run again. -/
theorem lifeRun_safe {M : Machine} {s₀ s : Sys} {base : Live} {tr : List Event}
    (h₀ : LifeStart M base s₀) (h : Run M (LifeCall M) s₀ s tr) :
    LifeSafe M s₀ base s tr := by
  have hinv : LifeInv M s₀ base s tr none := by
    induction h with
    | init => exact lifeInv_start h₀
    | step _ hok hstep ih => exact (ih.step hok hstep).1
  exact hinv.safe

/-! ## The first thread -/

/-- The kernel before its first thread: the allocators are ready and the table is
empty. -/
def noThread (M : Machine) (k : Kmem) (u : Umem) : Sys where
  thread _ := { ustackB := 0, state := .dead, retval := 0, join := none, tid := 0, context := .start }
  next := id
  prev := id
  threadTab _ := none
  threadCurrentIdx := 0
  threadCurrent := 0
  mutex _ := { busy := 0, owner := none }
  barrier _ := { magic := 0, expected := 0, waiting := 0 }
  kmem := kmemkernelInit M.kernel k
  umem := kmemuserInit M.user { u with ustackEnd := M.user.ustackBeg, uheapEnd := M.user.userLo }

/-- `thread_main_load` and `thread_bootstrap`: the first thread gets into its code. -/
def threadMainLoad (s : Sys) : Sys :=
  (s.setState s.threadCurrent .running).setContext s.threadCurrent .user

theorem noThread_existing {M : Machine} {k : Kmem} {u : Umem} (t : Nat) :
    ¬ (noThread M k u).Existing M t := by
  rintro ⟨i, -, hi⟩
  exact absurd hi (by simp [noThread])

theorem noThread_held {M : Machine} {k : Kmem} {u : Umem}
    (hu : M.user.userLo ≤ M.user.ustackBeg) : Held M (fun _ => none) (noThread M k u) := by
  refine ⟨⟨_, _, _, inv_init M.kernel k, fun t ht => absurd ht (noThread_existing t),
      fun _ _ => rfl⟩,
    ⟨_, [], ustackInv_init (Nat.le_refl _) hu rfl, ?_⟩, fun t ht => absurd ht (noThread_existing t),
    fun t _ ht => absurd ht (noThread_existing t)⟩
  intro e
  simp [noThread_existing]

/-- The first thread is a start of the runs. -/
theorem lifeStart_main {M : Machine} {k : Kmem} {u : Umem} {r : Errno} {s : Sys}
    {es : List Event} (hu : M.user.userLo ≤ M.user.ustackBeg)
    (h : threadCreate M (noThread M k u) = some (r, s, es)) :
    LifeStart M (fun _ => none) (threadMainLoad s) := by
  obtain ⟨x, tid, top, -, -, -, hlt, hfree, hfirst, htab, hidx, hcur, hthread, hheld'⟩ :=
    threadCreate_spec (noThread_held hu) h
  have hex := existing_insert hlt hfree htab
  -- the first thread gets the first place
  obtain rfl : tid = 0 := by
    by_contra hne
    exact hfirst 0 (Nat.pos_of_ne_zero hne) rfl
  have hcurx : s.threadCurrent = x := hcur.trans (if_pos rfl)
  have honly : ∀ t, s.Existing M t → t = x := fun t ht => ((hex t).mp ht).resolve_right (noThread_existing t)
  have hself : (threadMainLoad s).thread x =
      { s.thread x with state := .running, context := .user } := by
    simp [threadMainLoad, hcurx]
  have hx : s.thread x = { s.thread x with tid := 0, join := none } := by
    rw [hthread, Function.update_self]
  refine ⟨⟨?_, ?_, ?_, ?_⟩, (hheld' hex).same (.trans .setState .setContext), ?_, ?_⟩
  · exact hidx ▸ M.max_pos
  · change s.threadTab s.threadCurrentIdx = some s.threadCurrent
    rw [hidx, htab, hcurx]
    exact Function.update_self ..
  · change ((threadMainLoad s).thread s.threadCurrent).state = _ ∧
      ((threadMainLoad s).thread s.threadCurrent).context = _
    rw [hcurx, hself]
    exact ⟨rfl, rfl⟩
  · intro t ht hne
    exact absurd ((honly t ht).trans hcurx.symm) hne
  · intro i t hi hit
    obtain rfl := honly t ⟨i, hi, hit⟩
    rw [hself, hx]
    by_contra hne
    have hit' : s.threadTab i = some t := hit
    rw [htab, Function.update_of_ne (Ne.symm hne)] at hit'
    exact absurd hit' (by simp [noThread])
  · intro t ht
    obtain rfl := honly t ht
    rw [hself, hx]

/-! ## A run on a small machine -/

instance {M : Machine} {s : Sys} {t : Nat} : Decidable (s.Existing M t) :=
  inferInstanceAs (Decidable (∃ i, i < M.threadMax ∧ s.threadTab i = some t))

/-- The beginning of a join that waits for thread `x`. -/
def Event.awaits (x : Nat) : Event → Bool
  | .joinCalled _ y => y = x
  | _ => false

theorem awaited_iff {x : Nat} {tr : List Event} :
    Awaited x tr ↔ (life x tr).any (Event.awaits x) = true := by
  unfold Awaited
  rw [List.any_eq_true]
  constructor
  · rintro ⟨c, hc⟩
    exact ⟨_, hc, by simp [Event.awaits]⟩
  · rintro ⟨e, he, hx⟩
    cases e <;> simp only [Event.awaits, decide_eq_true_eq, Bool.false_eq_true] at hx
    case joinCalled c y => exact ⟨c, hx ▸ he⟩

instance {x : Nat} {tr : List Event} : Decidable (Awaited x tr) :=
  decidable_of_iff _ awaited_iff.symm

instance {M : Machine} {s : Sys} {tr : List Event} : ∀ c, Decidable (LifeCall M s tr c)
  | .create | .yield | .exit _ | .join none => isTrue trivial
  | .join (some x) =>
    inferInstanceAs (Decidable (s.Existing M x ∧ x ≠ s.threadCurrent ∧ ¬ Awaited x tr))
  | .lock _ | .unlock _ | .barrierWait _ => isFalse id

/-- A machine with two pages. -/
def twoPagesMachine : Machine := { smallMachine with kernel := twoPages }

def emptyUmem : Umem := { mem := fun _ => 0, ustackEnd := 0, uheapEnd := 0 }

/-- The first thread creates one, waits for it and gets its value; the next thread
is created in the same page. -/
def twoLives : List (Option Call) :=
  [some .create, some (.join (some 8192)), none, some .yield, none, some (.exit 7), none,
    some .create]

theorem lifeRun_safe_twoLives :
    ∃ s₀ s tr, LifeStart twoPagesMachine (fun _ => none) s₀ ∧
      Run twoPagesMachine (LifeCall twoPagesMachine) s₀ s tr ∧ .joined 4096 8192 7 ∈ tr ∧
      LifeSafe twoPagesMachine s₀ (fun _ => none) s tr := by
  have hrun : ((threadCreate twoPagesMachine (noThread twoPagesMachine usedMem emptyUmem)).bind
      fun r => runCalls twoPagesMachine (fun s tr c => decide (LifeCall twoPagesMachine s tr c))
        twoLives (threadMainLoad r.2.1) []).map
      (fun r => decide (.joined 4096 8192 7 ∈ r.2)) = some true := by
    decide +kernel
  obtain ⟨⟨s, tr⟩, hcalls, hmem⟩ := Option.map_eq_some_iff.mp hrun
  obtain ⟨⟨r, s₀, es⟩, hmain, hcalls⟩ := Option.bind_eq_some_iff.mp hcalls
  have hstart : LifeStart twoPagesMachine (fun _ => none) (threadMainLoad s₀) :=
    lifeStart_main (by decide) hmain
  have hsome := runCalls_run twoLives .init hcalls
  simp only [decide_eq_true_eq] at hsome hmem
  exact ⟨_, s, tr, hstart, hsome, hmem, lifeRun_safe hstart hsome⟩

end Ko6.Kernel
