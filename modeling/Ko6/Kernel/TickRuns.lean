import Ko6.Kernel.TickSteps

set_option autoImplicit false

/-!
# Kernel: sleeping and dead threads in every run with ticks

A thread that is not in its own code is at rest: `READY`, `ZOMBIE`, or, in a call that
waits, `WAIT` or `READY`.  The two ways out of `WAIT` are the wait lists, which hold
threads that wait in a call for this list, and the fields `join`, which name threads that
wait in `thread_join`.  All calls keep this, and with it each of their steps is lawful.

The processor comes to the second loop of `sched_elect` when no thread is `READY`, and
no call can make one then.  A tick there makes the current thread `RUNNING`; after that
it is the only thing that ticks find, and nothing else happens any more.
-/

namespace Ko6.Kernel

open Ko6.Lib Ko6.Common

/-! ## The invariant of the threads -/

/-- A thread that is not in its own code. -/
def Thread.Rests (th : Thread) : Prop :=
  match th.context with
  | .user => False
  | .start | .inYield => th.state = .ready
  | .inExit => th.state = .zombie
  | .inJoin _ | .inLock _ | .inBarrier _ => th.state = .wait ∨ th.state = .ready

/-- The threads of the table and what they hold. -/
structure Rested (M : Machine) (base : Live) (s : Sys) : Prop extends Held M base s where
  cur_lt : s.threadCurrentIdx < M.threadMax
  cur : s.threadTab s.threadCurrentIdx = some s.threadCurrent
  each : ∀ t, s.Existing M t → (s.thread t).Rests ∨ t = s.threadCurrent ∧
    (s.thread t).context = .user ∧ (s.thread t).state = .running
  tid : ∀ i t, i < M.threadMax → s.threadTab i = some t → (s.thread t).tid = i
  joiner : ∀ x t, s.Existing M x → (s.thread x).state ≠ .zombie → (s.thread x).join = some t →
    s.Existing M t ∧ (s.thread t).context = .inJoin x ∧ (s.thread t).state = .wait

section
variable {M : Machine} {base : Live} {s s' : Sys} {t c x th : Nat}

theorem Rested.existing_cur (h : Rested M base s) : s.Existing M s.threadCurrent :=
  ⟨_, h.cur_lt, h.cur⟩

/-- A thread in its own code is the current one. -/
theorem Rested.user (h : Rested M base s) (ht : s.Existing M t)
    (hctx : (s.thread t).context = .user) :
    t = s.threadCurrent ∧ (s.thread t).state = .running := by
  rcases h.each t ht with hr | ⟨htc, -, hrun⟩
  · unfold Thread.Rests at hr
    rw [hctx] at hr
    exact hr.elim
  · exact ⟨htc, hrun⟩

/-- A thread that has left its code is at rest. -/
theorem Rested.rests (h : Rested M base s) (ht : s.Existing M t)
    (hctx : (s.thread t).context ≠ .user) : (s.thread t).Rests := by
  rcases h.each t ht with hr | ⟨-, hu, -⟩
  · exact hr
  · exact absurd hu hctx

theorem Rested.zombie_iff (h : Rested M base s) (ht : s.Existing M t) :
    (s.thread t).state = .zombie ↔ (s.thread t).context = .inExit := by
  rcases h.each t ht with hr | ⟨-, hu, hrun⟩
  · unfold Thread.Rests at hr
    cases hctx : (s.thread t).context <;> simp only [hctx] at hr <;> simp [hr]
    all_goals rcases hr with hr | hr <;> simp [hr]
  · simp [hu, hrun]

/-- The current thread in its own code is neither asleep nor awaited. -/
theorem Rested.cur_running (h : Rested M base s)
    (hctx : (s.thread s.threadCurrent).context = .user) :
    (s.thread s.threadCurrent).state = .running :=
  (h.user h.existing_cur hctx).2

/-- Threads come to rest, or stay as they are. -/
theorem Rested.change (h : Rested M base s) (hsame : SameHeld s s')
    (hidx : s'.threadCurrentIdx = s.threadCurrentIdx) (hcur : s'.threadCurrent = s.threadCurrent)
    (hrest : ∀ t, s.Existing M t → s'.thread t = s.thread t ∨ (s'.thread t).Rests)
    (hjoiner : ∀ x t, s.Existing M x → (s'.thread x).state ≠ .zombie →
      (s'.thread x).join = some t → s.Existing M t ∧ (s'.thread t).context = .inJoin x ∧
        (s'.thread t).state = .wait) : Rested M base s' := by
  refine ⟨h.toHeld.same hsame, hidx ▸ h.cur_lt, ?_, ?_, ?_, ?_⟩
  · rw [hsame.tab, hidx, hcur]
    exact h.cur
  · intro t ht
    have ht := (hsame.existing t).mp ht
    rcases hrest t ht with he | hr
    · rw [he, hcur]
      exact h.each t ht
    · exact .inl hr
  · intro i t hi hit
    rw [hsame.tid]
    exact h.tid i t hi (hsame.tab ▸ hit)
  · intro x t hx hz hj
    rw [hsame.existing]
    exact hjoiner x t ((hsame.existing x).mp hx) hz hj

/-- The same, when the threads that wait in `thread_join` and the fields `join` stay. -/
theorem Rested.rest (h : Rested M base s) (hsame : SameHeld s s')
    (hidx : s'.threadCurrentIdx = s.threadCurrentIdx) (hcur : s'.threadCurrent = s.threadCurrent)
    (hrest : ∀ t, s.Existing M t → s'.thread t = s.thread t ∨ (s'.thread t).Rests ∧
      (s'.thread t).join = (s.thread t).join ∧ (s.thread t).state ≠ .zombie ∧
        ∀ x, (s.thread t).context ≠ .inJoin x) : Rested M base s' := by
  refine h.change hsame hidx hcur (fun t ht => (hrest t ht).imp id And.left) ?_
  intro x t hx hz hj
  have hjx : (s.thread x).join = some t ∧ (s.thread x).state ≠ .zombie := by
    rcases hrest x hx with he | ⟨-, hjoin, hnz, -⟩
    · rw [he] at hz hj
      exact ⟨hj, hz⟩
    · rw [hjoin] at hj
      exact ⟨hj, hnz⟩
  obtain ⟨ht, hctx, hw⟩ := h.joiner x t hx hjx.2 hjx.1
  rcases hrest t ht with he | ⟨-, -, -, hno⟩
  · rw [he]
    exact ⟨ht, hctx, hw⟩
  · exact absurd hctx (hno x)

end

/-! ## The invariant of the wait lists -/

/-- The root of a wait list that is in use. -/
def Sys.IsRoot (s : Sys) : Cell → Prop
  | .mutex _ => True
  | .barrier b => (s.barrier b).magic = magicBarrier
  | .thread _ => False

/-- Where the threads of a wait list are. -/
def Cell.waits : Cell → Context
  | .mutex m => .inLock m
  | .barrier b => .inBarrier b
  | .thread _ => .user

/-- The wait list of the root `r` is `q r`: threads that are asleep in a call for it. -/
structure Queues (M : Machine) (s : Sys) (q : Cell → List Nat) : Prop where
  rep : ∀ r, s.IsRoot r → Rep wcells s r ((q r).map .thread)
  queued : ∀ r, s.IsRoot r → ∀ t ∈ q r, s.Existing M t ∧ (s.thread t).context = r.waits ∧
    (s.thread t).state = .wait
  count : ∀ b, s.IsRoot (.barrier b) → (s.barrier b).waiting = (q (.barrier b)).length

section
variable {M : Machine} {s s' s₁ : Sys} {q : Cell → List Nat} {r r' : Cell} {t c : Nat}

theorem waits_inj (hr : s.IsRoot r) (hr' : s.IsRoot r') (h : r.waits = r'.waits) : r = r' := by
  cases r <;> cases r' <;> simp_all [Cell.waits, Sys.IsRoot]

theorem waits_ne (hr : s.IsRoot r) : r.waits ≠ .user ∧ r.waits ≠ .inExit ∧
    ∀ x, r.waits ≠ .inJoin x := by
  cases r <;> simp_all [Cell.waits, Sys.IsRoot]

theorem isRoot_congr (h : ∀ b, (s'.barrier b).magic = (s.barrier b).magic) :
    s'.IsRoot r ↔ s.IsRoot r := by
  cases r with
  | barrier b =>
    simp only [Sys.IsRoot]
    rw [h b]
  | mutex | thread => exact Iff.rfl

/-- The lists stay when the sleeping threads in them and their links do. -/
theorem Queues.same (h : Queues M s q) (hnext : s'.next = s.next) (hprev : s'.prev = s.prev)
    (hbarrier : s'.barrier = s.barrier)
    (hkeep : ∀ r t, s.IsRoot r → s.Existing M t → (s.thread t).state = .wait →
      (s.thread t).context = r.waits → s'.Existing M t ∧
        ((s'.thread t).context, (s'.thread t).state) =
          ((s.thread t).context, (s.thread t).state)) : Queues M s' q := by
  have hroot : ∀ r, s'.IsRoot r → s.IsRoot r := fun r =>
    (isRoot_congr fun b => by rw [hbarrier]).mp
  refine ⟨fun r hr => Sys.rep_congr (h.rep r (hroot r hr)) hnext hprev, ?_, ?_⟩
  · intro r hr t ht
    obtain ⟨hex, hctx, hw⟩ := h.queued r (hroot r hr) t ht
    obtain ⟨hex', he⟩ := hkeep r t (hroot r hr) hex hw hctx
    obtain ⟨hctx', hw'⟩ := Prod.mk.inj he
    exact ⟨hex', hctx'.trans hctx, hw'.trans hw⟩
  · intro b hb
    rw [hbarrier]
    exact h.count b (hroot _ hb)

/-- A change of the list of `r` leaves the other lists alone. -/
theorem Queues.rep_other {s₀ : Sys} {X : List Cell} (h : Queues M s q) (hr : s.IsRoot r)
    (hr' : s.IsRoot r') (hne : r' ≠ r) (hrep : Rep wcells s₀ r' ((q r').map .thread))
    (ht : Touches wcells X s₀ s₁)
    (hX : ∀ a ∈ X, a = .thread c ∨ a = r ∨ a ∈ (q r).map Cell.thread) (hc : c ∉ q r') :
    Rep wcells s₁ r' ((q r').map .thread) := by
  refine ht.rep hrep (fun _ _ => trivial) ?_
  rintro a ha d hd rfl
  have hthread : ∀ u, r' ≠ .thread u := by
    rintro u rfl
    exact hr'
  have hmem : ∀ u, Cell.thread u ∈ r' :: (q r').map Cell.thread → u ∈ q r' := by
    intro u hu
    simpa [Ne.symm (hthread u)] using hu
  rcases hX d ha with rfl | rfl | ha
  · exact hc (hmem c hd)
  · rcases List.mem_cons.mp hd with rfl | hd
    · exact hne rfl
    · obtain ⟨u, -, rfl⟩ := List.mem_map.mp hd
      exact hr
  · -- a thread waits in one call
    obtain ⟨u, hu, rfl⟩ := List.mem_map.mp ha
    have h1 := (h.queued r hr u hu).2.1
    have h2 := (h.queued r' hr' u (hmem u hd)).2.1
    exact hne (waits_inj hr' hr (h2.symm.trans h1))

end

/-- The invariant of the kernel. -/
structure SleepInv (M : Machine) (base : Live) (s : Sys) (q : Cell → List Nat) : Prop
    extends Rested M base s, Queues M s q

/-- The kernel keeps its invariant, and the step is lawful. -/
def Keeps (M : Machine) (base : Live) (s : Sys) (a : Act) (es : List Event) (s' : Sys) : Prop :=
  (∃ q, SleepInv M base s' q) ∧ Lawful M s a es s'

section
variable {M : Machine} {base : Live} {s s' : Sys} {q : Cell → List Nat} {a : Act}
  {es : List Event} {t x th : Nat}

/-- The threads of the wait lists are not in their own code. -/
theorem SleepInv.cur_not_mem {r : Cell} (h : SleepInv M base s q) (hr : s.IsRoot r)
    (hc : (s.thread s.threadCurrent).context = .user) : s.threadCurrent ∉ q r := by
  intro hmem
  have hctx := (h.queued r hr _ hmem).2.1
  exact (waits_ne hr).1 (hctx.symm.trans hc)

/-! ## Creations and yields -/

/-- `thread_create` writes the links of the new thread only. -/
theorem threadCreate_links {r : Errno} (hcall : threadCreate M s = some (r, s', es)) :
    s'.barrier = s.barrier ∧ ∀ x tid top, es = [.created x tid top] → ∀ c, c ≠ .thread x →
      s'.next c = s.next c ∧ s'.prev c = s.prev c := by
  unfold threadCreate at hcall
  obtain ⟨⟨thread, k⟩, -, hcall⟩ := Option.bind_eq_some_iff.mp hcall
  simp only at hcall
  split at hcall
  · simp only [Option.some.injEq, Prod.mk.injEq] at hcall
    obtain ⟨-, rfl, rfl⟩ := hcall
    exact ⟨rfl, fun _ _ _ he => absurd he (by simp)⟩
  · simp only [Option.bind_eq_bind, Option.bind_eq_some_iff] at hcall
    obtain ⟨⟨top, u⟩, -, s₂, hinsert, hres⟩ := hcall
    unfold schedInsert at hinsert
    obtain ⟨tid, -, hinsert⟩ := Option.bind_eq_some_iff.mp hinsert
    simp only [Option.some.injEq, Prod.mk.injEq] at hinsert hres
    obtain ⟨-, rfl, rfl⟩ := hres
    rw [← hinsert]
    constructor
    · split <;> rfl
    · rintro x tid' top' he c hc
      simp only [List.cons.injEq, Event.created.injEq, and_true] at he
      obtain ⟨rfl, -, -⟩ := he
      split
      all_goals exact ⟨Function.update_of_ne hc _ _, Function.update_of_ne hc _ _⟩

theorem SleepInv.create {r : Errno} (h : SleepInv M base s q)
    (hcall : threadCreate M s = some (r, s', es)) : Keeps M base s a es s' := by
  have hcur0 := h.toHeld.ne_zero h.existing_cur
  obtain ⟨x, tid, top, -, hes, hnew, htidlt, hfree, -, htab, hidx, hcur, hthread, hheld⟩ :=
    threadCreate_spec h.toHeld hcall
  obtain ⟨hbarrier, hlinks⟩ := threadCreate_links hcall
  have hex := existing_insert htidlt hfree htab
  have hother : ∀ t, s.Existing M t → s'.thread t = s.thread t := by
    intro t ht
    rw [hthread, Function.update_of_ne]
    rintro rfl
    exact hnew ht
  have hself : s'.thread x = { s.thread x with
      ustackB := top, state := .ready, retval := 0, join := none, tid := tid,
      context := .start } := by
    rw [hthread, Function.update_self]
  have hroot : ∀ r, s'.IsRoot r ↔ s.IsRoot r := fun r => isRoot_congr fun b => by rw [hbarrier]
  rw [if_neg hcur0] at hcur
  have hinv : SleepInv M base s' q := by
    refine ⟨⟨hheld hex, hidx ▸ h.cur_lt, ?_, ?_, ?_, ?_⟩, ?_, ?_, ?_⟩
    · rw [htab, hidx, hcur, Function.update_of_ne, h.cur]
      intro he
      rw [← he, h.cur] at hfree
      exact absurd hfree (by simp)
    · intro t ht
      rcases (hex t).mp ht with rfl | ht
      · rw [hself]
        exact .inl rfl
      · rw [hother t ht, hcur]
        exact h.each t ht
    · intro i t hi hit
      rw [htab] at hit
      by_cases hitid : i = tid
      · rw [hitid, Function.update_self, Option.some.injEq] at hit
        rw [← hit, hself, hitid]
      · rw [Function.update_of_ne hitid] at hit
        rw [hother t ⟨i, hi, hit⟩]
        exact h.tid i t hi hit
    · intro y t hy hz hj
      rcases (hex y).mp hy with rfl | hy
      · rw [hself] at hj
        exact absurd hj (by simp)
      · rw [hother y hy] at hz hj
        obtain ⟨ht, hctx, hw⟩ := h.joiner y t hy hz hj
        rw [hother t ht]
        exact ⟨(hex t).mpr (.inr ht), hctx, hw⟩
    · intro r hr
      have hr := (hroot r).mp hr
      have hmem : ∀ c ∈ r :: (q r).map Cell.thread, c ≠ .thread x := by
        rintro c hc rfl
        rcases List.mem_cons.mp hc with rfl | hc
        · exact hr
        · obtain ⟨t, ht, he⟩ := List.mem_map.mp hc
          exact hnew (Cell.thread.inj he ▸ (h.queued r hr t ht).1)
      exact (h.rep r hr).congr (fun c hc => (hlinks x tid top hes c (hmem c hc)).1)
        fun c hc => (hlinks x tid top hes c (hmem c hc)).2
    · intro r hr t ht
      have hr := (hroot r).mp hr
      obtain ⟨hext, hctx, hw⟩ := h.queued r hr t ht
      rw [hother t hext]
      exact ⟨(hex t).mpr (.inr hext), hctx, hw⟩
    · intro b hb
      rw [hbarrier]
      exact h.count b ((hroot _).mp hb)
  exact ⟨⟨q, hinv⟩, lawful_of_keep fun t ht _ => by rw [hother t ht]⟩

/-- `thread_yield`, called by the thread or by the handler of a tick in its code. -/
theorem SleepInv.yield (h : SleepInv M base s q)
    (hc : (s.thread s.threadCurrent).context = .user) : Keeps M base s a es (threadYield s) := by
  have hrun := h.cur_running hc
  have hself := threadYield_self s
  have hother : ∀ t, t ≠ s.threadCurrent → (threadYield s).thread t = s.thread t :=
    fun _ => threadYield_of_ne
  have hsame : SameHeld s (threadYield s) := .trans .setState .setContext
  refine ⟨⟨q, ⟨h.toRested.rest hsame rfl rfl fun t _ => ?_, h.toQueues.same rfl rfl rfl ?_⟩⟩,
    lawful_of_keep fun t _ hs => ?_⟩
  · by_cases htc : t = s.threadCurrent
    · rw [htc, hself]
      exact .inr ⟨rfl, rfl, by rw [hrun]; simp, by rw [hc]; simp⟩
    · exact .inl (hother t htc)
  · intro r t hr ht hw _
    have htc : t ≠ s.threadCurrent := by
      rintro rfl
      rw [hrun] at hw
      exact absurd hw (by simp)
    exact ⟨(hsame.existing t).mpr ht, by rw [hother t htc]⟩
  · rw [hother t]
    rintro rfl
    rw [hrun] at hs
    exact absurd hs (by simp)

/-! ## Exits -/

/-- The thread that an exit wakes waits in a join for the thread that exits. -/
theorem SleepInv.exit {v : Nat} (h : SleepInv M base s q)
    (hc : (s.thread s.threadCurrent).context = .user) :
    Keeps M base s (.call (.exit v)) es (threadExit v s).1 := by
  have hrun := h.cur_running hc
  have hjoin : ∀ t, (s.thread s.threadCurrent).join = some t → s.Existing M t ∧
      (s.thread t).context = .inJoin s.threadCurrent ∧ (s.thread t).state = .wait :=
    fun t => h.joiner s.threadCurrent t h.existing_cur (by rw [hrun]; simp)
  have hne : (s.thread s.threadCurrent).join ≠ some s.threadCurrent := by
    intro he
    have hctx := (hjoin _ he).2.1
    rw [hc] at hctx
    exact absurd hctx (by simp)
  obtain ⟨hself, hwoken, hother⟩ := threadExit_thread (v := v) hne
  have hsame : SameHeld s (threadExit v s).1 := .exit
  have hfields : (threadExit v s).1.threadCurrentIdx = s.threadCurrentIdx ∧
      (threadExit v s).1.threadCurrent = s.threadCurrent ∧ (threadExit v s).1.next = s.next ∧
      (threadExit v s).1.prev = s.prev ∧ (threadExit v s).1.barrier = s.barrier := by
    unfold threadExit
    cases hj : (s.thread s.threadCurrent).join <;> simp only [Sys.modThread_self, hj] <;>
      exact ⟨rfl, rfl, rfl, rfl, rfl⟩
  generalize (threadExit v s).1 = s' at hself hwoken hother hsame hfields ⊢
  obtain ⟨hidx, hcur, hnext, hprev, hbarrier⟩ := hfields
  -- besides the current thread only the one that it wakes changes
  have hcase : ∀ t, t ≠ s.threadCurrent → s'.thread t = s.thread t ∨
      (s.thread s.threadCurrent).join = some t ∧
        s'.thread t = { s.thread t with state := .ready } := by
    intro t ht
    by_cases hjt : (s.thread s.threadCurrent).join = some t
    · exact .inr ⟨hjt, hwoken t ht hjt⟩
    · exact .inl (hother t ht hjt)
  refine ⟨⟨q, h.toRested.change hsame hidx hcur ?_ ?_, h.toQueues.same hnext hprev hbarrier ?_⟩,
    ?_, ?_⟩
  · intro t ht
    by_cases htc : t = s.threadCurrent
    · rw [htc, hself]
      exact .inr rfl
    · obtain he | ⟨hjt, he⟩ := hcase t htc
      · exact .inl he
      · refine .inr ?_
        rw [he]
        unfold Thread.Rests
        simp only [(hjoin t hjt).2.1, or_true]
  · intro x t hx hz hj
    have hxc : x ≠ s.threadCurrent := by
      rintro rfl
      rw [hself] at hz
      exact hz rfl
    have hold : (s.thread x).join = some t ∧ (s.thread x).state ≠ .zombie := by
      obtain he | ⟨hjx, he⟩ := hcase x hxc
      · rw [he] at hz hj
        exact ⟨hj, hz⟩
      · rw [he] at hj
        refine ⟨hj, ?_⟩
        rw [(hjoin x hjx).2.2]
        simp
    obtain ⟨ht, hctx, hw⟩ := h.joiner x t hx hold.2 hold.1
    have htc : t ≠ s.threadCurrent := by
      rintro rfl
      rw [hc] at hctx
      exact absurd hctx (by simp)
    obtain he | ⟨hjt, -⟩ := hcase t htc
    · rw [he]
      exact ⟨ht, hctx, hw⟩
    · -- a thread waits for one other thread
      have hctx' := (hjoin t hjt).2.1
      rw [hctx, Context.inJoin.injEq] at hctx'
      exact absurd hctx' hxc
  · intro r t hr ht hw hctx
    have htc : t ≠ s.threadCurrent := by
      rintro rfl
      rw [hrun] at hw
      exact absurd hw (by simp)
    obtain he | ⟨hjt, -⟩ := hcase t htc
    · exact ⟨(hsame.existing t).mpr ht, by rw [he]⟩
    · exact absurd (hctx.symm.trans (hjoin t hjt).2.1) ((waits_ne hr).2.2 _)
  · intro t ht hw hw'
    have htc : t ≠ s.threadCurrent := by
      rintro rfl
      rw [hrun] at hw
      exact absurd hw (by simp)
    obtain he | ⟨hjt, he⟩ := hcase t htc
    · rw [he] at hw'
      exact absurd hw hw'
    · rw [he]
      exact ⟨rfl, _, rfl, .inr (hjoin t hjt).2.1⟩
  · intro t ht hz hz'
    have htc : t ≠ s.threadCurrent := by
      rintro rfl
      rw [hrun] at hz
      exact absurd hz (by simp)
    obtain he | ⟨hjt, -⟩ := hcase t htc
    · rw [he] at hz'
      exact absurd hz hz'
    · rw [(hjoin t hjt).2.2] at hz
      exact absurd hz (by simp)

/-! ## Joins -/

/-- The end of `thread_join`, for a thread that has exited: it is `DEAD` and gone from
the table, and nothing else changes. -/
theorem SleepInv.joinEnd (h : SleepInv M base s q)
    (hc : (s.thread s.threadCurrent).context = .user) (hx : s.Existing M x)
    (hz : (s.thread x).state = .zombie) (hend : joinEnd M x s = some (s', es)) :
    SleepInv M base s' q ∧ (s'.thread x).state = .dead ∧
      (∀ t, t ≠ x → s'.thread t = s.thread t) ∧ ∃ v, .joined s.threadCurrent x v ∈ es := by
  have hrun := h.cur_running hc
  have hxc : x ≠ s.threadCurrent := by
    rintro rfl
    rw [hrun] at hz
    exact absurd hz (by simp)
  have htid : s.threadTab (s.thread x).tid = some x := by
    obtain ⟨i, hi, hix⟩ := hx
    rw [h.tid i x hi hix]
    exact hix
  obtain ⟨u, k, hu, hk, hheld⟩ := h.toHeld.free hx
  obtain ⟨hs', hes⟩ := Prod.mk.inj (Option.some.inj (hend.symm.trans (joinEnd_eq hu hk)))
  have hself : s'.thread x = { s.thread x with state := .dead } := by
    rw [hs']
    exact Sys.setState_self
  have hother : ∀ t, t ≠ x → s'.thread t = s.thread t := by
    intro t ht
    rw [hs']
    exact Sys.setState_of_ne ht
  have htab : s'.threadTab = Function.update s.threadTab (s.thread x).tid none := by rw [hs']
  have hex := existing_unlink htid (fun j hj hjx => (h.tid j x hj hjx).symm) htab
  have hfields : s'.threadCurrentIdx = s.threadCurrentIdx ∧ s'.threadCurrent = s.threadCurrent ∧
      s'.next = s.next ∧ s'.prev = s.prev ∧ s'.barrier = s.barrier := by
    rw [hs']
    exact ⟨rfl, rfl, rfl, rfl, rfl⟩
  obtain ⟨hidx, hcur, hnext, hprev, hbarrier⟩ := hfields
  have hwake : ∀ t, s.Existing M t → (s.thread t).state = .wait →
      s'.Existing M t ∧ s'.thread t = s.thread t := by
    intro t ht hw
    have htx : t ≠ x := by
      rintro rfl
      rw [hz] at hw
      exact absurd hw (by simp)
    exact ⟨(hex t).mpr ⟨ht, htx⟩, hother t htx⟩
  refine ⟨⟨⟨hheld s' (by rw [hs']) (by rw [hs']) hex ?_, hidx ▸ h.cur_lt, ?_, ?_, ?_, ?_⟩,
    h.toQueues.same hnext hprev hbarrier ?_⟩, by rw [hself], hother, (s.thread x).retval, ?_⟩
  · intro t
    by_cases htx : t = x
    · rw [htx, hself]
    · rw [hother t htx]
  · rw [hidx, hcur, htab, Function.update_of_ne, h.cur]
    intro he
    have hcurtab := h.cur
    rw [he, htid, Option.some.injEq] at hcurtab
    exact hxc hcurtab
  · intro t ht
    obtain ⟨ht, htx⟩ := (hex t).mp ht
    rw [hother t htx, hcur]
    exact h.each t ht
  · intro i t hi hit
    have ht : s'.Existing M t := ⟨i, hi, hit⟩
    rw [hother t ((hex t).mp ht).2]
    rw [htab] at hit
    by_cases hix : i = (s.thread x).tid
    · rw [hix, Function.update_self] at hit
      exact absurd hit (by simp)
    · rw [Function.update_of_ne hix] at hit
      exact h.tid i t hi hit
  · intro y t hy hnz hj
    obtain ⟨hy, hyx⟩ := (hex y).mp hy
    rw [hother y hyx] at hnz hj
    obtain ⟨ht, hctx, hw⟩ := h.joiner y t hy hnz hj
    obtain ⟨ht', he⟩ := hwake t ht hw
    rw [he]
    exact ⟨ht', hctx, hw⟩
  · intro r t _ ht hw _
    obtain ⟨ht', he⟩ := hwake t ht hw
    exact ⟨ht', by rw [he]⟩
  · rw [hes]
    exact List.mem_cons_self

/-- `thread_join` of a thread that has exited, or that has not and is waited for. -/
theorem SleepInv.join {r : Option Errno} (h : SleepInv M base s q)
    (hc : (s.thread s.threadCurrent).context = .user)
    (hok : (s.thread x).state = .zombie → s.Existing M x)
    (hcall : threadJoin M (some x) s = some (r, s', es)) : Keeps M base s a es s' := by
  have hrun := h.cur_running hc
  obtain ⟨s₁, hs₁⟩ : ∃ s₁, s₁ = s.modThread x fun th => { th with join := some s.threadCurrent } :=
    ⟨_, rfl⟩
  have hself : s₁.thread x = { s.thread x with join := some s.threadCurrent } := by
    rw [hs₁, Sys.modThread_self]
  have hother : ∀ t, t ≠ x → s₁.thread t = s.thread t := by
    intro t ht
    rw [hs₁, Sys.modThread_of_ne ht]
  have hstate : ∀ t, (s₁.thread t).state = (s.thread t).state ∧
      (s₁.thread t).context = (s.thread t).context := by
    intro t
    by_cases htx : t = x
    · rw [htx, hself]
      exact ⟨rfl, rfl⟩
    · rw [hother t htx]
      exact ⟨rfl, rfl⟩
  have hsame : SameHeld s s₁ := hs₁ ▸ .modThread fun _ => ⟨rfl, rfl⟩
  have hcur : s₁.threadCurrent = s.threadCurrent := by rw [hs₁]; rfl
  simp only [threadJoin, ← hs₁] at hcall
  by_cases hz : (s₁.thread x).state = .zombie
  · -- it has exited
    rw [if_neg (not_not.mpr hz)] at hcall
    obtain ⟨⟨s₂, es₂⟩, hend, hres⟩ := Option.bind_eq_some_iff.mp hcall
    simp only [Option.some.injEq, Prod.mk.injEq] at hres
    obtain ⟨-, rfl, rfl⟩ := hres
    have hzx : (s.thread x).state = .zombie := (hstate x).1.symm.trans hz
    have hx := hok hzx
    have hxw : ∀ t, (s.thread t).state = .wait → t ≠ x := by
      rintro t hw rfl
      rw [hzx] at hw
      exact absurd hw (by simp)
    have hinv : SleepInv M base s₁ q := by
      refine ⟨h.toRested.change hsame (by rw [hs₁]; rfl) hcur ?_ ?_,
        h.toQueues.same (by rw [hs₁]; rfl) (by rw [hs₁]; rfl) (by rw [hs₁]; rfl) ?_⟩
      · intro t _
        by_cases htx : t = x
        · refine .inr ?_
          unfold Thread.Rests
          rw [htx, (hstate x).2, (h.zombie_iff hx).mp hzx]
          exact hz
        · exact .inl (hother t htx)
      · intro y t hy hnz hj
        have hyx : y ≠ x := by
          rintro rfl
          exact hnz hz
        rw [hother y hyx] at hnz hj
        obtain ⟨ht, hctx, hw⟩ := h.joiner y t hy hnz hj
        rw [hother t (hxw t hw)]
        exact ⟨ht, hctx, hw⟩
      · exact fun r t _ ht hw _ => ⟨(hsame.existing t).mpr ht, by rw [hother t (hxw t hw)]⟩
    have hc₁ : (s₁.thread s₁.threadCurrent).context = .user := by
      rw [hcur, (hstate _).2]
      exact hc
    obtain ⟨hinv', hdead, hrest, v, hjoined⟩ :=
      hinv.joinEnd hc₁ ((hsame.existing x).mpr hx) hz hend
    refine ⟨⟨q, hinv'⟩, ?_, ?_⟩
    · intro t ht hw hw'
      rw [hrest t (hxw t hw), hother t (hxw t hw)] at hw'
      exact absurd hw hw'
    · intro t ht hzt hzt'
      by_cases htx : t = x
      · subst htx
        exact ⟨hdead, _, v, List.mem_append_left _ hjoined⟩
      · rw [hrest t htx, hother t htx] at hzt'
        exact absurd hzt hzt'
  · -- it is waited for
    rw [if_pos hz] at hcall
    simp only [Option.some.injEq, Prod.mk.injEq] at hcall
    obtain ⟨-, rfl, rfl⟩ := hcall
    obtain ⟨s', hs'⟩ : ∃ s', s' =
        (s₁.setState s.threadCurrent .wait).setContext s.threadCurrent (.inJoin x) := ⟨_, rfl⟩
    rw [← hs']
    have hcself : s'.thread s.threadCurrent =
        { s₁.thread s.threadCurrent with state := .wait, context := .inJoin x } := by
      rw [hs', Sys.setContext_self, Sys.setState_self]
    have hcother : ∀ t, t ≠ s.threadCurrent → s'.thread t = s₁.thread t := by
      intro t ht
      rw [hs', Sys.setContext_of_ne ht, Sys.setState_of_ne ht]
    have hsame' : SameHeld s s' := hs' ▸ hsame.trans (.trans .setState .setContext)
    have hfields : s'.threadCurrentIdx = s.threadCurrentIdx ∧ s'.threadCurrent = s.threadCurrent ∧
        s'.next = s.next ∧ s'.prev = s.prev ∧ s'.barrier = s.barrier := by
      rw [hs', hs₁]
      exact ⟨rfl, rfl, rfl, rfl, rfl⟩
    obtain ⟨hidx, hcur', hnext, hprev, hbarrier⟩ := hfields
    have hkeep : ∀ t, (s.thread t).state ≠ .running →
        ((s'.thread t).context, (s'.thread t).state) =
          ((s.thread t).context, (s.thread t).state) := by
      intro t hnr
      have htc : t ≠ s.threadCurrent := by
        rintro rfl
        exact hnr hrun
      rw [hcother t htc, (hstate t).1, (hstate t).2]
    refine ⟨⟨q, h.toRested.change hsame' hidx hcur' ?_ ?_,
      h.toQueues.same hnext hprev hbarrier ?_⟩, lawful_of_keep ?_⟩
    · intro t ht
      by_cases htc : t = s.threadCurrent
      · refine .inr ?_
        rw [htc, hcself]
        exact .inl rfl
      · rw [hcother t htc]
        by_cases htx : t = x
        · refine .inr ?_
          have hr := (h.each t ht).resolve_right fun hu => htc hu.1
          unfold Thread.Rests at hr ⊢
          rwa [(hstate t).1, (hstate t).2]
        · exact .inl (hother t htx)
    · intro y t hy hnz hj
      by_cases hyx : y = x
      · -- the current thread waits for `x`
        have hjx : (s'.thread y).join = some s.threadCurrent := by
          have hj₁ : (s₁.thread y).join = some s.threadCurrent := by rw [hyx, hself]
          by_cases hyc : y = s.threadCurrent
          · rw [hyc, hcself]
            exact hyc ▸ hj₁
          · rw [hcother y hyc, hj₁]
        rw [hjx, Option.some.injEq] at hj
        rw [← hj, hcself, hyx]
        exact ⟨h.existing_cur, rfl, rfl⟩
      · have hold : (s.thread y).join = some t ∧ (s.thread y).state ≠ .zombie := by
          by_cases hyc : y = s.threadCurrent
          · rw [hyc, hcself] at hj
            rw [← hother y hyx, hyc]
            refine ⟨hj, ?_⟩
            rw [(hstate _).1, hrun]
            simp
          · rw [hcother y hyc, hother y hyx] at hj hnz
            exact ⟨hj, hnz⟩
        obtain ⟨ht, hctx, hw⟩ := h.joiner y t hy hold.2 hold.1
        obtain ⟨hctx', hw'⟩ := Prod.mk.inj (hkeep t (by rw [hw]; simp))
        exact ⟨ht, hctx'.trans hctx, hw'.trans hw⟩
    · exact fun r t _ ht hw _ => ⟨(hsame'.existing t).mpr ht, hkeep t (by rw [hw]; simp)⟩
    · intro t _ hs
      refine (Prod.mk.inj (hkeep t ?_)).2
      rcases hs with hs | hs <;> rw [hs] <;> simp

/-! ## Wait lists -/

/-- The current thread goes to the end of a wait list and to sleep. -/
theorem SleepInv.block {r : Cell} {s₀ : Sys} (h : SleepInv M base s q)
    (hc : (s.thread s.threadCurrent).context = .user) (hr : s.IsRoot r)
    (hs₀ : s₀ = { s with barrier := s₀.barrier })
    (hmagic : ∀ b, (s₀.barrier b).magic = (s.barrier b).magic)
    (hwaiting : ∀ b, (s₀.barrier b).waiting =
      (s.barrier b).waiting + if r = .barrier b then 1 else 0) :
    Keeps M base s a es
      (threadWait r.waits (listAddlast wcells s₀ r (.thread s.threadCurrent))) := by
  have hrun := h.cur_running hc
  have hrep₀ : ∀ r', s.IsRoot r' → Rep wcells s₀ r' ((q r').map .thread) := by
    intro r' hr'
    refine Sys.rep_congr (h.rep r' hr') ?_ ?_ <;> rw [hs₀]
  have hnew : Cell.thread s.threadCurrent ∉ r :: (q r).map .thread := by
    intro hmem
    rcases List.mem_cons.mp hmem with rfl | hmem
    · exact hr
    · exact h.cur_not_mem hr hc (by simpa using hmem)
  have hrep := (hrep₀ r hr).addlast trivial hnew
  have htouch := (hrep₀ r hr).addlast_touches trivial hnew
  obtain ⟨s₁, hs₁⟩ : ∃ s₁, s₁ = listAddlast wcells s₀ r (.thread s.threadCurrent) := ⟨_, rfl⟩
  rw [← hs₁] at hrep htouch ⊢
  have hrun₀ : (s₀.thread s₀.threadCurrent).state = .running := by
    rw [hs₀]
    exact hrun
  obtain ⟨s', hs'⟩ : ∃ s', s' = threadWait r.waits s₁ := ⟨_, rfl⟩
  rw [← hs']
  have hsleep₀ : AsleepIn r.waits s₀ s' := hs' ▸ asleepIn_threadWait htouch hrun₀
  have hsleep : AsleepIn r.waits s s' := hsleep₀.of_barrier hs₀
  rw [threadWait_of_touches htouch hrun₀] at hs'
  have hkmem : s'.kmem = s.kmem := by rw [hs', hs₀]
  have humem : s'.umem = s.umem := by rw [hs', hs₀]
  have hbarrier : s'.barrier = s₀.barrier := by rw [hs']
  have hnext : s'.next = s₁.next := by rw [hs']
  have hprev : s'.prev = s₁.prev := by rw [hs']
  have hself := hsleep.self
  have hother := hsleep.other
  have hsame : SameHeld s s' := by
    refine ⟨hsleep.threadTab, hkmem, humem, fun t => ?_, fun t => ?_⟩
    all_goals
      by_cases htc : t = s.threadCurrent
      · rw [htc, hself]
      · rw [hother t htc]
  have hroot : ∀ r', s'.IsRoot r' ↔ s.IsRoot r' := fun r' => isRoot_congr fun b => by
    rw [hbarrier, hmagic b]
  refine ⟨⟨Function.update q r (q r ++ [s.threadCurrent]),
    h.toRested.rest hsame hsleep.threadCurrentIdx hsleep.threadCurrent fun t _ => ?_,
    fun r' hr' => ?_, fun r' hr' t ht => ?_, fun b hb => ?_⟩, lawful_of_keep fun t _ hs => ?_⟩
  · by_cases htc : t = s.threadCurrent
    · rw [htc, hself]
      refine .inr ⟨?_, rfl, by rw [hrun]; simp, by rw [hc]; simp⟩
      cases r with
      | mutex m => exact .inl rfl
      | barrier b => exact .inl rfl
      | thread u => exact hr.elim
    · exact .inl (hother t htc)
  · have hr' := (hroot r').mp hr'
    refine Sys.rep_congr ?_ hnext hprev
    by_cases hne : r' = r
    · rw [hne, Function.update_self]
      simpa using hrep
    · rw [Function.update_of_ne hne]
      refine h.rep_other hr hr' hne (hrep₀ r' hr') htouch (c := s.threadCurrent) ?_
        (h.cur_not_mem hr' hc)
      intro a ha
      simpa using ha
  · have hr' := (hroot r').mp hr'
    rw [hsame.existing]
    by_cases htc : t = s.threadCurrent
    · subst htc
      by_cases hne : r' = r
      · rw [hne, hself]
        exact ⟨h.existing_cur, rfl, rfl⟩
      · rw [Function.update_of_ne hne] at ht
        exact absurd ht (h.cur_not_mem hr' hc)
    · rw [hother t htc]
      refine h.queued r' hr' t ?_
      by_cases hne : r' = r
      · rw [hne, Function.update_self] at ht
        rw [hne]
        simpa [htc] using ht
      · rwa [Function.update_of_ne hne] at ht
  · have hcount := h.count b ((hroot _).mp hb)
    rw [hbarrier, hwaiting b, hcount]
    by_cases hne : Cell.barrier b = r
    · rw [← hne, Function.update_self, if_pos rfl, List.length_append]
      rfl
    · rw [Function.update_of_ne hne, if_neg (Ne.symm hne), Nat.add_zero]
  · rw [hother t]
    rintro rfl
    rw [hrun] at hs
    exact absurd hs (by simp)

/-- A call wakes the first threads of a wait list. -/
theorem SleepInv.wakes {r : Cell} (ts rest : List Nat) (h : SleepInv M base s q)
    (hr : s.IsRoot r) (hq : q r = ts ++ rest) (htab : s'.threadTab = s.threadTab)
    (hidx : s'.threadCurrentIdx = s.threadCurrentIdx) (hcur : s'.threadCurrent = s.threadCurrent)
    (hkmem : s'.kmem = s.kmem) (humem : s'.umem = s.umem) (hthread : s'.thread = wake s.thread ts)
    (hmagic : ∀ b, (s'.barrier b).magic = (s.barrier b).magic)
    (hrep : ∀ r', s.IsRoot r' → Rep wcells s' r' ((Function.update q r rest r').map .thread))
    (hcount : ∀ b, s.IsRoot (.barrier b) →
      (s'.barrier b).waiting = (Function.update q r rest (.barrier b)).length)
    (hnotify : ∀ t ∈ ts, ∃ c, a = .call c ∧ Notifies s t c) : Keeps M base s a es s' := by
  have hmem : ∀ t ∈ ts, t ∈ q r := by
    intro t ht
    rw [hq]
    exact List.mem_append_left _ ht
  have hwoken : ∀ t, t ∈ ts → s'.thread t = { s.thread t with state := .ready } := by
    intro t ht
    rw [hthread]
    exact if_pos ht
  have hother : ∀ t, t ∉ ts → s'.thread t = s.thread t := by
    intro t ht
    rw [hthread]
    exact if_neg ht
  have hsame : SameHeld s s' := by
    refine ⟨htab, hkmem, humem, fun t => ?_, fun t => ?_⟩
    all_goals
      by_cases ht : t ∈ ts
      · rw [hwoken t ht]
      · rw [hother t ht]
  have hroot : ∀ r', s'.IsRoot r' ↔ s.IsRoot r' := fun r' => isRoot_congr hmagic
  have hnodup : (ts ++ rest).Nodup := by
    have hnd := (h.rep r hr).nodup
    rw [hq] at hnd
    exact hnd.of_map _
  refine ⟨⟨Function.update q r rest, h.toRested.rest hsame hidx hcur fun t _ => ?_,
    fun r' hr' => hrep r' ((hroot r').mp hr'), fun r' hr' t ht => ?_,
    fun b hb => hcount b ((hroot _).mp hb)⟩, ?_, ?_⟩
  · by_cases ht : t ∈ ts
    · obtain ⟨-, hctx, hw⟩ := h.queued r hr t (hmem t ht)
      rw [hwoken t ht]
      refine .inr ⟨?_, rfl, by rw [hw]; simp, fun x hx => (waits_ne hr).2.2 x (hctx.symm.trans hx)⟩
      unfold Thread.Rests
      cases r with
      | mutex m => simp only [hctx, Cell.waits, or_true]
      | barrier b => simp only [hctx, Cell.waits, or_true]
      | thread u => exact hr.elim
    · exact .inl (hother t ht)
  · have hr' := (hroot r').mp hr'
    rw [hsame.existing]
    by_cases hne : r' = r
    · subst hne
      rw [Function.update_self] at ht
      rw [hother t fun hts => (List.nodup_append.mp hnodup).2.2 t hts t ht rfl]
      refine h.queued r' hr' t ?_
      rw [hq]
      exact List.mem_append_right _ ht
    · rw [Function.update_of_ne hne] at ht
      have hold := h.queued r' hr' t ht
      rw [hother t ?_]
      · exact hold
      · intro hts
        -- a thread waits in one call
        have hctx := (h.queued r hr t (hmem t hts)).2.1
        exact hne (waits_inj hr' hr (hold.2.1.symm.trans hctx))
  · intro t ht hw hw'
    by_cases hts : t ∈ ts
    · obtain ⟨c, hac, hc⟩ := hnotify t hts
      rw [hwoken t hts]
      exact ⟨rfl, c, hac, .inl hc⟩
    · rw [hother t hts] at hw'
      exact absurd hw hw'
  · intro t ht hz hz'
    by_cases hts : t ∈ ts
    · rw [(h.queued r hr t (hmem t hts)).2.2] at hz
      exact absurd hz (by simp)
    · rw [hother t hts] at hz'
      exact absurd hz hz'

/-- A call that changes no thread, no list and no count. -/
theorem SleepInv.data (h : SleepInv M base s q) (hs' : s' = { s with mutex := s'.mutex }) :
    Keeps M base s a es s' := by
  have hthread : s'.thread = s.thread := by rw [hs']
  have hsame : SameHeld s s' := by
    rw [hs']
    exact ⟨rfl, rfl, rfl, fun _ => rfl, fun _ => rfl⟩
  refine ⟨⟨q, h.toRested.rest hsame (by rw [hs']) (by rw [hs']) fun t _ => .inl (by rw [hthread]),
    h.toQueues.same (by rw [hs']) (by rw [hs']) (by rw [hs']) fun r t _ ht _ _ => ?_⟩,
    lawful_of_keep fun t _ _ => by rw [hthread]⟩
  exact ⟨(hsame.existing t).mpr ht, by rw [hthread]⟩

theorem SleepInv.lock {m : Option Nat} (h : SleepInv M base s q)
    (hc : (s.thread s.threadCurrent).context = .user) :
    Keeps M base s a es (threadMutexLock m s).2.1 := by
  cases m with
  | none => exact h.data rfl
  | some m =>
    unfold threadMutexLock
    simp only
    split
    · exact h.data rfl
    split
    · exact h.block (r := .mutex m) hc trivial rfl (fun _ => rfl) (by simp)
    · exact h.data rfl

theorem SleepInv.unlock {m : Option Nat} (h : SleepInv M base s q) :
    Keeps M base s (.call (.unlock m)) es (threadMutexUnlock m s).2.1 := by
  cases m with
  | none => exact h.data rfl
  | some m =>
    have hrep := h.rep (.mutex m) trivial
    unfold threadMutexUnlock
    simp only
    split
    · exact h.data rfl
    rename_i hbusy
    split
    · exact h.data rfl
    rename_i howner
    cases hq : q (.mutex m) with
    | nil =>
      rw [hq] at hrep
      rw [hrep.getfirst_nil]
      exact h.data rfl
    | cons t rest =>
      rw [hq] at hrep
      rw [hrep.getfirst_cons]
      simp only [threadItem]
      have hrep' : Rep wcells s (.mutex m) ([] ++ Cell.thread t :: rest.map .thread) := hrep
      have htouch := hrep'.unlink_touches
      have hunlink := hrep'.unlink
      obtain ⟨s₁, hs₁⟩ : ∃ s₁, s₁ = listUnlink wcells s (.thread t) := ⟨_, rfl⟩
      rw [← hs₁] at htouch hunlink ⊢
      have hlinks := Sys.of_touches htouch
      have hwake : wake s.thread [t] =
          Function.update s.thread t { s.thread t with state := .ready } := by
        funext u
        by_cases hu : u = t
        · subst hu
          simp [wake]
        · simp [wake, hu]
      refine h.wakes (r := .mutex m) [t] rest trivial hq (by rw [hlinks]; rfl)
        (by rw [hlinks]; rfl) (by rw [hlinks]; rfl) (by rw [hlinks]; rfl) (by rw [hlinks]; rfl) ?_
        (fun b => by rw [hlinks]; rfl) ?_ ?_ ?_
      · rw [hwake, hlinks]
        rfl
      · intro r' hr'
        refine Sys.rep_congr (s := s₁) ?_ rfl rfl
        by_cases hne : r' = .mutex m
        · rw [hne, Function.update_self]
          exact hunlink
        · rw [Function.update_of_ne hne]
          by_cases hmem : t ∈ q r'
          · have hctx := (h.queued r' hr' t hmem).2.1
            have hctx' := (h.queued (.mutex m) trivial t (by rw [hq]; exact List.mem_cons_self)).2.1
            have hroot : s.IsRoot (.mutex m) := trivial
            exact absurd (waits_inj hr' hroot (hctx.symm.trans hctx')) hne
          · refine h.rep_other (r := .mutex m) (c := t) trivial hr' hne (h.rep r' hr') htouch ?_
              hmem
            intro a ha
            rw [hq, List.map_cons]
            simp only [List.nil_append, List.mem_cons] at ha ⊢
            tauto
      · intro b hb
        rw [Function.update_of_ne (by simp), ← h.count b hb, hlinks]
        rfl
      · intro u hu
        obtain rfl := List.mem_singleton.mp hu
        exact ⟨_, rfl, hbusy, not_not.mp howner, _, hrep⟩

theorem SleepInv.barrierWait {b : Option Nat} {r : Option Errno} (h : SleepInv M base s q)
    (hc : (s.thread s.threadCurrent).context = .user)
    (hcall : threadBarrierWait b s = some (r, s', es)) :
    Keeps M base s (.call (.barrierWait b)) es s' := by
  cases b with
  | none =>
    simp only [threadBarrierWait, Option.some.injEq, Prod.mk.injEq] at hcall
    obtain ⟨-, rfl, -⟩ := hcall
    exact h.data rfl
  | some b =>
    by_cases hmagic : (s.barrier b).magic = magicBarrier
    · have hr : s.IsRoot (.barrier b) := hmagic
      have hcount := h.count b hr
      by_cases hlast : (s.barrier b).waiting + 1 = (s.barrier b).expected
      · obtain ⟨s₁, hs₁, hnil, hfields, hframe⟩ :=
          barrierWait_last hmagic hlast (h.rep _ hr) hcount.symm
        rw [hs₁, Option.some.injEq, Prod.mk.injEq, Prod.mk.injEq] at hcall
        obtain ⟨-, rfl, -⟩ := hcall
        have hbar : s₁.barrier =
            Function.update s.barrier b { s.barrier b with waiting := 0 } := by rw [hfields]
        refine h.wakes (r := .barrier b) (q (.barrier b)) [] hr (List.append_nil _).symm
          (by rw [hfields]) (by rw [hfields]) (by rw [hfields]) (by rw [hfields]) (by rw [hfields])
          (by rw [hfields]) ?_ ?_ ?_ ?_
        · intro b'
          rw [hbar]
          by_cases hb : b' = b
          · rw [hb, Function.update_self]
          · rw [Function.update_of_ne hb]
        · intro r' hr'
          by_cases hne : r' = .barrier b
          · rw [hne, Function.update_self]
            exact hnil
          · rw [Function.update_of_ne hne]
            refine hframe r' _ (h.rep r' hr') fun c hcr hcb => ?_
            rcases List.mem_cons.mp hcr with rfl | hcr
            · rcases List.mem_cons.mp hcb with he | hcb
              · exact hne he
              · obtain ⟨u, -, rfl⟩ := List.mem_map.mp hcb
                exact hr'
            · obtain ⟨u, hu, rfl⟩ := List.mem_map.mp hcr
              have hub : u ∈ q (.barrier b) := by simpa using hcb
              exact hne (waits_inj hr' hr
                ((h.queued r' hr' u hu).2.1.symm.trans (h.queued _ hr u hub).2.1))
        · intro b' hb'
          rw [hbar]
          by_cases hb : b' = b
          · subst hb
            simp
          · rw [Function.update_of_ne hb, Function.update_of_ne (by simpa using hb)]
            exact h.count b' hb'
        · exact fun t ht => ⟨_, rfl, hmagic, hlast, _, h.rep _ hr, List.mem_map_of_mem ht⟩
      · -- the thread waits for the others
        obtain ⟨s₀, hs₀⟩ : ∃ s₀, s₀ = s.modBarrier b fun x => { x with waiting := x.waiting + 1 } :=
          ⟨_, rfl⟩
        have hbar : s₀.barrier b = { s.barrier b with waiting := (s.barrier b).waiting + 1 } := by
          rw [hs₀]
          exact Function.update_self ..
        have hother : ∀ b', b' ≠ b → s₀.barrier b' = s.barrier b' := by
          intro b' hb
          rw [hs₀]
          exact Function.update_of_ne hb ..
        have hnot : ¬ (s₀.barrier b).waiting = (s₀.barrier b).expected := by
          rw [hbar]
          exact hlast
        unfold threadBarrierWait at hcall
        simp only [hmagic, ne_eq, not_true_eq_false, if_false, ← hs₀] at hcall
        rw [if_neg hnot] at hcall
        simp only [Option.some.injEq, Prod.mk.injEq] at hcall
        obtain ⟨-, rfl, -⟩ := hcall
        refine h.block (r := .barrier b) hc hr (by rw [hs₀]; rfl) (fun b' => ?_) fun b' => ?_
        · by_cases hb : b' = b
          · rw [hb, hbar]
          · rw [hother b' hb]
        · by_cases hb : b' = b
          · rw [hb, hbar, if_pos rfl]
          · have hne : ¬ Cell.barrier b = Cell.barrier b' := fun he => hb (Cell.barrier.inj he).symm
            rw [hother b' hb, if_neg hne, Nat.add_zero]
    · unfold threadBarrierWait at hcall
      simp only [ne_eq, hmagic, not_false_eq_true, if_true, Option.some.injEq,
        Prod.mk.injEq] at hcall
      obtain ⟨-, rfl, -⟩ := hcall
      exact h.data rfl

/-! ## Calls and switches -/

/-- Every call of the running thread. -/
theorem SleepInv.call {c : Call} {r : Option Errno} (h : SleepInv M base s q)
    (hc : (s.thread s.threadCurrent).context = .user) (hok : JoinsExited M s (.call c))
    (hcall : doCall M c s = some (r, s', es)) : Keeps M base s (.call c) es s' := by
  cases c with
  | create =>
    simp only [doCall, Option.map_eq_some_iff, Prod.mk.injEq] at hcall
    obtain ⟨⟨e, s₁, es₁⟩, hcreate, -, rfl, rfl⟩ := hcall
    exact h.create hcreate
  | yield =>
    simp only [doCall, Option.some.injEq, Prod.mk.injEq] at hcall
    obtain ⟨-, rfl, rfl⟩ := hcall
    exact h.yield hc
  | exit v =>
    simp only [doCall, Option.some.injEq, Prod.mk.injEq] at hcall
    obtain ⟨-, hexit⟩ := hcall
    have hs' : s' = (threadExit v s).1 := by rw [hexit]
    rw [hs']
    exact h.exit hc
  | join x =>
    cases x with
    | none =>
      simp only [doCall, threadJoin, Option.some.injEq, Prod.mk.injEq] at hcall
      obtain ⟨-, rfl, rfl⟩ := hcall
      exact h.data rfl
    | some x => exact h.join hc hok hcall
  | lock m =>
    simp only [doCall, Option.some.injEq] at hcall
    have hs' : s' = (threadMutexLock m s).2.1 := by rw [hcall]
    rw [hs']
    exact h.lock hc
  | unlock m =>
    simp only [doCall, Option.some.injEq, Prod.mk.injEq] at hcall
    obtain ⟨-, rfl, rfl⟩ := hcall
    exact h.unlock
  | barrierWait b => exact h.barrierWait hc hcall

/-- A `READY` thread goes on in its own code. -/
theorem SleepInv.elect (h : SleepInv M base s q)
    (hc : (s.thread s.threadCurrent).context ≠ .user) (hth : th < M.threadMax)
    (htab : s.threadTab th = some t) (hready : (s.thread t).state = .ready) :
    SleepInv M base (s.elect th t) q := by
  have hsame : SameHeld s (s.elect th t) := .elect
  have hwait : ∀ u, (s.thread u).state = .wait → (s.elect th t).thread u = s.thread u := by
    intro u hw
    refine Sys.elect_of_ne ?_
    rintro rfl
    rw [hready] at hw
    exact absurd hw (by simp)
  refine ⟨⟨h.toHeld.same hsame, hth, htab, ?_, ?_, ?_⟩, h.toQueues.same rfl rfl rfl ?_⟩
  · intro u hu
    by_cases hut : u = t
    · refine .inr ?_
      rw [hut, Sys.elect_self]
      exact ⟨rfl, rfl, rfl⟩
    · rw [Sys.elect_of_ne hut]
      refine .inl (h.rests hu fun hctx => hc ?_)
      rw [← (h.user hu hctx).1]
      exact hctx
  · intro i u hi hiu
    rw [hsame.tid]
    exact h.tid i u hi hiu
  · intro y u hy hnz hj
    have hold : (s.thread y).join = some u ∧ (s.thread y).state ≠ .zombie := by
      by_cases hyt : y = t
      · rw [hyt, Sys.elect_self] at hj
        rw [hyt, hready]
        exact ⟨hj, by simp⟩
      · rw [Sys.elect_of_ne hyt] at hnz hj
        exact ⟨hj, hnz⟩
    obtain ⟨hu, hctx, hw⟩ := h.joiner y u hy hold.2 hold.1
    rw [hwait u hw]
    exact ⟨hu, hctx, hw⟩
  · exact fun r u _ hu hw _ => ⟨hu, by rw [hwait u hw]⟩

/-- `sched_switch` and the end of the call of the elected thread. -/
theorem SleepInv.switch {s₁ : Sys} (h : SleepInv M base s q)
    (hc : (s.thread s.threadCurrent).context ≠ .user)
    (hok : ∀ t x, s.Existing M t → (s.thread t).state = .ready →
      (s.thread t).context = .inJoin x → s.Existing M x ∧ (s.thread x).state = .zombie)
    (hsw : schedSwitch M s = some s₁) (hres : resume M s₁ = some (s', es)) :
    Keeps M base s a es s' := by
  obtain ⟨th, t, hth, htab, hready, hend⟩ := switch_spec h.cur hsw hres
  have ht : s.Existing M t := ⟨th, hth, htab⟩
  have hinv := h.elect hc hth htab hready
  have hlaw : ∀ u, (s.thread u).state = .wait ∨ (s.thread u).state = .zombie →
      (s.elect th t).thread u = s.thread u := by
    intro u hu
    refine Sys.elect_of_ne ?_
    rintro rfl
    rw [hready] at hu
    exact absurd hu (by simp)
  cases hctx : (s.thread t).context <;> simp only [hctx] at hend
  case inJoin x =>
    obtain ⟨hx, hz⟩ := hok t x ht hready hctx
    have hxt : x ≠ t := by
      rintro rfl
      rw [hready] at hz
      exact absurd hz (by simp)
    have hctx' : ((s.elect th t).thread (s.elect th t).threadCurrent).context = .user := by
      have hcur : (s.elect th t).threadCurrent = t := rfl
      rw [hcur, Sys.elect_self]
    obtain ⟨hinv', hdead, hother, v, hjoined⟩ := hinv.joinEnd hctx' hx
      (by rw [Sys.elect_of_ne hxt, hz]) hend
    refine ⟨⟨q, hinv'⟩, ?_, ?_⟩
    · intro u hu hw hw'
      have hux : u ≠ x := by
        rintro rfl
        rw [hz] at hw
        exact absurd hw (by simp)
      rw [hother u hux, hlaw u (.inl hw)] at hw'
      exact absurd hw hw'
    · intro u hu hzu hzu'
      by_cases hux : u = x
      · subst hux
        exact ⟨hdead, _, v, hjoined⟩
      · rw [hother u hux, hlaw u (.inr hzu)] at hzu'
        exact absurd hzu hzu'
  all_goals
    obtain ⟨rfl, -⟩ := hend
    exact ⟨⟨q, hinv⟩, lawful_of_keep fun u _ hu => by rw [hlaw u hu]⟩

end

/-! ## The second loop -/

/-- No thread of the table is `READY`. -/
def NoneReady (M : Machine) (s : Sys) : Prop :=
  ∀ t, s.Existing M t → (s.thread t).state ≠ .ready

/-- The current thread has one place in the table, and it is the current one. -/
structure Sys.HasPlace (M : Machine) (s : Sys) : Prop where
  cur_lt : s.threadCurrentIdx < M.threadMax
  cur : s.threadTab s.threadCurrentIdx = some s.threadCurrent
  only : ∀ i, i < M.threadMax → s.threadTab i = some s.threadCurrent → i = s.threadCurrentIdx

/-- Where the processor is, and what it can find there. -/
inductive Place (M : Machine) (base : Live) (cpu : Core) : Prop where
  /-- In a call or in the code of a thread. -/
  | calls (q : Cell → List Nat) : cpu.waiting = none → SleepInv M base cpu.sys q → Place M base cpu
  /-- In the second loop of `sched_elect`. -/
  | loop (th : Nat) (q : Cell → List Nat) : cpu.waiting = some th → th < M.threadMax →
      SleepInv M base cpu.sys q → (cpu.sys.thread cpu.sys.threadCurrent).context ≠ .user →
      NoneReady M cpu.sys → Place M base cpu
  /-- In this loop, after a tick has made the current thread `RUNNING`. -/
  | stuck (th : Nat) : cpu.waiting = some th → th < M.threadMax → cpu.sys.HasPlace M →
      (cpu.sys.thread cpu.sys.threadCurrent).state = .running → NoneReady M cpu.sys →
      Place M base cpu

/-- The invariant of the runs: no thread has given up the processor in a handler. -/
structure CoreInv (M : Machine) (base : Live) (cpu : Core) : Prop where
  place : Place M base cpu
  ticked : ∀ t, cpu.ticked t = none

section
variable {M : Machine} {base : Live} {cpu cpu' : Core} {s : Sys} {q : Cell → List Nat} {a : Act}
  {es : List Event} {th : Nat}

theorem Rested.hasPlace (h : Rested M base s) : s.HasPlace M := by
  refine ⟨h.cur_lt, h.cur, fun i hi hit => ?_⟩
  rw [← h.tid i _ hi hit, ← h.tid _ _ h.cur_lt h.cur]

/-- When `sched_elect` comes to its second loop, no thread is `READY`. -/
theorem noneReady_of_elect (hlt : s.threadCurrentIdx < M.threadMax)
    (h : schedElect M s = none) : NoneReady M s := by
  rintro t ⟨i, hi, hit⟩ hready
  obtain ⟨th, hth, -⟩ := schedElect_first hlt hi (readyAt_iff.mpr ⟨t, hit, hready⟩)
  rw [h] at hth
  exact absurd hth (by simp)

/-- The thread that has given up the processor is asleep or dead in the second loop. -/
theorem SleepInv.asleep (h : SleepInv M base s q)
    (hc : (s.thread s.threadCurrent).context ≠ .user) (hnone : NoneReady M s) :
    (s.thread s.threadCurrent).state = .wait ∨ (s.thread s.threadCurrent).state = .zombie := by
  have hr := h.rests h.existing_cur hc
  have hnr := hnone _ h.existing_cur
  unfold Thread.Rests at hr
  cases hctx : (s.thread s.threadCurrent).context <;> simp only [hctx] at hr
  case inExit => exact .inr hr
  case start | inYield => exact absurd hr hnr
  all_goals exact .inl (hr.resolve_right hnr)

/-- What a tick in the second loop does: it makes the current thread `RUNNING`. -/
structure Stirs (cpu cpu' : Core) : Prop where
  waiting : cpu'.waiting = cpu.waiting
  ticked : cpu'.ticked = cpu.ticked
  tab : cpu'.sys.threadTab = cpu.sys.threadTab
  idx : cpu'.sys.threadCurrentIdx = cpu.sys.threadCurrentIdx
  cur : cpu'.sys.threadCurrent = cpu.sys.threadCurrent
  self : (cpu'.sys.thread cpu.sys.threadCurrent).state = .running
  other : ∀ t, t ≠ cpu.sys.threadCurrent → cpu'.sys.thread t = cpu.sys.thread t

/-- The handler finds the current thread, which it has just made `READY`, and no other
one. -/
theorem tick_stirs (hw : cpu.waiting = some th) (hplace : cpu.sys.HasPlace M)
    (hnone : NoneReady M cpu.sys) :
    ∃ cpu', coreStep M .tick cpu = some (cpu', []) ∧ Stirs cpu cpu' := by
  obtain ⟨s, hs⟩ : ∃ s, s = cpu.sys.setState cpu.sys.threadCurrent .ready := ⟨_, rfl⟩
  have hfields : s.threadTab = cpu.sys.threadTab ∧
      s.threadCurrentIdx = cpu.sys.threadCurrentIdx ∧ s.threadCurrent = cpu.sys.threadCurrent := by
    rw [hs]
    exact ⟨rfl, rfl, rfl⟩
  obtain ⟨htab, hidx, hcur⟩ := hfields
  have hself : (s.thread cpu.sys.threadCurrent).state = .ready := by rw [hs, Sys.setState_self]
  have hready : readyAt s cpu.sys.threadCurrentIdx = true :=
    readyAt_iff.mpr ⟨_, htab ▸ hplace.cur, hself⟩
  obtain ⟨thNext, helect, -⟩ := schedElect_first (hidx ▸ hplace.cur_lt) hplace.cur_lt hready
  have hnext : thNext = cpu.sys.threadCurrentIdx := by
    obtain ⟨hlt, t, ht, htr⟩ := schedElect_spec helect
    rw [htab] at ht
    refine hplace.only thNext hlt ?_
    by_cases htc : t = cpu.sys.threadCurrent
    · rw [← htc]
      exact ht
    · rw [hs, Sys.setState_of_ne htc] at htr
      exact absurd htr (hnone t ⟨thNext, hlt, ht⟩)
  subst hnext
  have hswitch : switchTo cpu.sys.threadCurrentIdx s =
      s.setState cpu.sys.threadCurrent .running := by
    unfold switchTo
    simp only [hidx, ne_eq, not_true_eq_false, if_false, hcur]
  refine ⟨{ cpu with sys := s.setState cpu.sys.threadCurrent .running }, ?_,
    ⟨rfl, rfl, htab, hidx, hcur, ?_, ?_⟩⟩
  · unfold coreStep
    simp only [hw, ← hs, helect, Option.bind_some]
    rw [if_pos hidx.symm, hswitch]
  · exact congrArg Thread.state Sys.setState_self
  · intro t ht
    exact (Sys.setState_of_ne ht).trans (hs ▸ Sys.setState_of_ne ht)

/-- Ticks make the place stuck, or find it so. -/
theorem Stirs.stuck (h : Stirs cpu cpu') (hw : cpu.waiting = some th) (hth : th < M.threadMax)
    (hplace : cpu.sys.HasPlace M) (hnone : NoneReady M cpu.sys) : Place M base cpu' := by
  refine .stuck th (h.waiting.trans hw) hth ⟨?_, ?_, ?_⟩ ?_ ?_
  · rw [h.idx]
    exact hplace.cur_lt
  · rw [h.tab, h.idx, h.cur]
    exact hplace.cur
  · intro i hi hit
    rw [h.tab, h.cur] at hit
    rw [h.idx]
    exact hplace.only i hi hit
  · rw [h.cur]
    exact h.self
  · rintro t ⟨i, hi, hit⟩
    rw [h.tab] at hit
    by_cases htc : t = cpu.sys.threadCurrent
    · rw [htc, h.self]
      simp
    · rw [h.other t htc]
      exact hnone t ⟨i, hi, hit⟩

/-! ## Steps -/

/-- No thread has to go on in a handler. -/
theorem goOn_eq (hticked : ∀ t, cpu.ticked t = none) :
    goOn M th cpu = (resume M (switchTo th cpu.sys)).map fun (s, es) =>
      ({ cpu with sys := s, waiting := none }, es) := by
  unfold goOn
  simp only [hticked, ite_self]

/-- The elected thread goes on. -/
theorem SleepInv.goesOn (h : SleepInv M base cpu.sys q) (hticked : ∀ t, cpu.ticked t = none)
    (hc : (cpu.sys.thread cpu.sys.threadCurrent).context ≠ .user)
    (hok : ∀ t x, cpu.sys.Existing M t → (cpu.sys.thread t).state = .ready →
      (cpu.sys.thread t).context = .inJoin x →
        cpu.sys.Existing M x ∧ (cpu.sys.thread x).state = .zombie)
    (helect : schedElect M cpu.sys = some th) (hgo : goOn M th cpu = some (cpu', es)) :
    CoreInv M base cpu' ∧ Lawful M cpu.sys a es cpu'.sys := by
  rw [goOn_eq hticked, Option.map_eq_some_iff] at hgo
  obtain ⟨⟨s', es'⟩, hres, heq⟩ := hgo
  simp only [Prod.mk.injEq] at heq
  obtain ⟨rfl, rfl⟩ := heq
  have hsw : schedSwitch M cpu.sys = some (switchTo th cpu.sys) := by
    rw [schedSwitch_eq, helect, Option.map_some]
  obtain ⟨⟨q', hq'⟩, hlaw⟩ := h.switch (a := a) hc hok hsw hres
  exact ⟨⟨.calls q' rfl hq', hticked⟩, hlaw⟩

/-- The second loop finds no thread at its turns. -/
theorem look_none (hw : cpu.waiting = some th) (hth : th < M.threadMax)
    (hnone : NoneReady M cpu.sys) (hstep : coreStep M .look cpu = some (cpu', es)) :
    cpu' = { cpu with waiting := some (nextPlace M th) } := by
  have hready : ¬ readyAt cpu.sys th = true := by
    intro hready
    obtain ⟨t, ht, htr⟩ := readyAt_iff.mp hready
    exact hnone t ⟨th, hth, ht⟩ htr
  unfold coreStep at hstep
  simp only [hw, if_neg hready, Option.some.injEq, Prod.mk.injEq] at hstep
  exact hstep.1.symm

/-- In the second loop nothing but ticks and turns can happen. -/
theorem loop_acts (hw : cpu.waiting = some th) (hstep : coreStep M a cpu = some (cpu', es)) :
    a = .tick ∨ a = .look := by
  cases a with
  | tick => exact .inl rfl
  | look => exact .inr rfl
  | call c | elect =>
    unfold coreStep at hstep
    simp only [hw, reduceCtorEq, false_and, if_false] at hstep

/-- A step from a call or from the code of a thread. -/
theorem SleepInv.step (h : SleepInv M base cpu.sys q) (hw : cpu.waiting = none)
    (hticked : ∀ t, cpu.ticked t = none) (hok : JoinsExited M cpu.sys a)
    (hstep : coreStep M a cpu = some (cpu', es)) :
    CoreInv M base cpu' ∧ Lawful M cpu.sys a es cpu'.sys := by
  cases a with
  | call c =>
    simp only [coreStep] at hstep
    split at hstep
    case isFalse => exact absurd hstep (by simp)
    rename_i hc
    rw [Option.map_eq_some_iff] at hstep
    obtain ⟨⟨r, s', es'⟩, hcall, heq⟩ := hstep
    simp only [Prod.mk.injEq] at heq
    obtain ⟨rfl, rfl⟩ := heq
    obtain ⟨⟨q', hq'⟩, hlaw⟩ := h.call hc.2 hok hcall
    exact ⟨⟨.calls q' hw hq', hticked⟩, hlaw⟩
  | tick =>
    simp only [coreStep, hw] at hstep
    split at hstep
    case isFalse => exact absurd hstep (by simp)
    rename_i hc
    simp only [Option.some.injEq, Prod.mk.injEq] at hstep
    obtain ⟨rfl, rfl⟩ := hstep
    have hkeeps : Keeps M base cpu.sys .tick [] (threadYield cpu.sys) := h.yield hc
    obtain ⟨⟨q', hq'⟩, hlaw⟩ := hkeeps
    exact ⟨⟨.calls q' rfl hq', hticked⟩, hlaw⟩
  | elect =>
    simp only [coreStep] at hstep
    split at hstep
    case isFalse => exact absurd hstep (by simp)
    rename_i hc
    cases helect : schedElect M cpu.sys with
    | some th =>
      simp only [helect] at hstep
      exact h.goesOn hticked hc.2 hok helect hstep
    | none =>
      -- the processor comes to the second loop
      simp only [helect, Option.some.injEq, Prod.mk.injEq] at hstep
      obtain ⟨rfl, rfl⟩ := hstep
      refine ⟨⟨.loop _ q rfl (Nat.mod_lt _ M.max_pos) h hc.2 ?_, hticked⟩, ?_⟩
      · exact noneReady_of_elect h.cur_lt helect
      · exact lawful_of_keep fun _ _ _ => rfl
  | look =>
    simp only [coreStep, hw] at hstep
    exact absurd hstep (by simp)

/-- Every step keeps the invariant, and it is lawful unless it is a tick that wakes a
sleeping or dead thread. -/
theorem CoreInv.step (h : CoreInv M base cpu) (hok : JoinsExited M cpu.sys a)
    (hstep : coreStep M a cpu = some (cpu', es)) :
    CoreInv M base cpu' ∧ (Lawful M cpu.sys a es cpu'.sys ↔ ¬ WakesSleeper cpu a) := by
  obtain ⟨hplace, hticked⟩ := h
  cases hplace with
  | calls q hw hinv =>
    obtain ⟨hcpu, hlaw⟩ := hinv.step hw hticked hok hstep
    refine ⟨hcpu, iff_of_true hlaw ?_⟩
    rintro ⟨-, hsome, -⟩
    rw [hw] at hsome
    exact absurd hsome (by simp)
  | loop th q hw hth hinv hc hnone =>
    have hasleep := hinv.asleep hc hnone
    rcases loop_acts hw hstep with rfl | rfl
    · obtain ⟨cpu₁, htick, hstirs⟩ := tick_stirs hw hinv.hasPlace hnone
      rw [htick, Option.some.injEq, Prod.mk.injEq] at hstep
      obtain ⟨rfl, rfl⟩ := hstep
      refine ⟨⟨hstirs.stuck hw hth hinv.hasPlace hnone, fun t => ?_⟩, ?_⟩
      · rw [hstirs.ticked, hticked]
      · refine iff_of_false ?_ (not_not.mpr ?_)
        · exact not_lawful_of_running hinv.existing_cur hasleep hstirs.self
        · exact ⟨rfl, by rw [hw]; rfl, hasleep⟩
    · obtain rfl := look_none hw hth hnone hstep
      refine ⟨⟨.loop _ q rfl (Nat.mod_lt _ M.max_pos) hinv hc hnone, hticked⟩, ?_⟩
      refine iff_of_true (lawful_of_keep fun _ _ _ => rfl) ?_
      rintro ⟨ha, -⟩
      exact absurd ha (by simp)
  | stuck th hw hth hplace hrun hnone =>
    rcases loop_acts hw hstep with rfl | rfl
    · obtain ⟨cpu₁, htick, hstirs⟩ := tick_stirs hw hplace hnone
      rw [htick, Option.some.injEq, Prod.mk.injEq] at hstep
      obtain ⟨rfl, rfl⟩ := hstep
      refine ⟨⟨hstirs.stuck hw hth hplace hnone, fun t => ?_⟩, iff_of_true ?_ ?_⟩
      · rw [hstirs.ticked, hticked]
      · refine lawful_of_keep fun t _ hs => ?_
        rw [hstirs.other t]
        rintro rfl
        rw [hrun] at hs
        exact absurd hs (by simp)
      · rintro ⟨-, -, hs⟩
        rw [hrun] at hs
        exact absurd hs (by simp)
    · obtain rfl := look_none hw hth hnone hstep
      refine ⟨⟨.stuck _ rfl (Nat.mod_lt _ M.max_pos) hplace hrun hnone, hticked⟩, ?_⟩
      refine iff_of_true (lawful_of_keep fun _ _ _ => rfl) ?_
      rintro ⟨ha, -⟩
      exact absurd ha (by simp)

end

/-! ## Runs -/

section
variable {M : Machine} {base : Live} {cpu₀ cpu cpu' : Core} {a : Act} {es : List Event}

end

/-! ## The first thread -/

/-- The thread that a thread joins. -/
def Context.joins : Context → Option Nat
  | .inJoin x => some x
  | _ => none

theorem joinsExited_iff {M : Machine} {s : Sys} :
    (∀ t x, s.Existing M t → (s.thread t).state = .ready → (s.thread t).context = .inJoin x →
      s.Existing M x ∧ (s.thread x).state = .zombie) ↔
    ∀ i < M.threadMax, ∀ t ∈ s.threadTab i, (s.thread t).state = .ready →
      ∀ x ∈ (s.thread t).context.joins, s.Existing M x ∧ (s.thread x).state = .zombie := by
  constructor
  · intro h i hi t hit hready x hx
    refine h t x ⟨i, hi, hit⟩ hready ?_
    cases hctx : (s.thread t).context <;> simp_all [Context.joins]
  · rintro h t x ⟨i, hi, hit⟩ hready hctx
    exact h i hi t hit hready x (by rw [hctx]; rfl)

instance {M : Machine} {s : Sys} : (a : Act) → Decidable (JoinsExited M s a)
  | .call (.join (some x)) =>
    inferInstanceAs (Decidable ((s.thread x).state = .zombie → s.Existing M x))
  | .elect | .look => decidable_of_iff _ joinsExited_iff.symm
  | .call (.join none) | .call .create | .call .yield | .call (.exit _) | .call (.lock _)
  | .call (.unlock _) | .call (.barrierWait _) | .tick => isTrue trivial

end Ko6.Kernel
