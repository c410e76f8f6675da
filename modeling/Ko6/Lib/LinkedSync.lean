import Ko6.Lib.Linked
import Mathlib.Algebra.BigOperators.Group.List.Basic
import Mathlib.Data.List.Basic

set_option autoImplicit false

/-!
# Lib: locks and counters over linked words

The processors take and give back locks, and add to counters, by load linked and store
conditional (or by one indivisible addition), in any interleaving.  A lock is held by one
processor at most, and the additions to the counters come in an order in which each of them
works on what the one before has left.
-/

namespace Ko6.Lib.LinkedSync

variable {C A V : Type}

/-- What a processor is about to do.  `lock`, `unlock` and `add` are the calls under way,
`seen` and `sum` come after the load linked, and `locked`, `unlocked` and `added` when the
call has done its work and has to return. -/
inductive Stage (A V : Type) where
  | client
  | lock (a : A)
  | seen (a : A) (v : V)
  | locked (a : A)
  | unlock (a : A)
  | unlocked (a : A)
  | add (a : A) (v : V)
  | sum (a : A) (v x : V)
  | added (a : A) (v r : V)

/-- The lock a call is about. -/
def Stage.lockWord : Stage A V → Option A
  | .lock a | .seen a _ | .locked a | .unlock a | .unlocked a => some a
  | _ => none

/-- The counter a call is about. -/
def Stage.counter : Stage A V → Option A
  | .add a _ | .sum a _ _ | .added a _ _ => some a
  | _ => none

/-- What the load linked has read. -/
def Stage.read : Stage A V → Option (A × V)
  | .seen a v => some (a, v)
  | .sum a _ x => some (a, x)
  | _ => none

/-- The lock that has been got, or not yet given back, in the call under way. -/
def Stage.owned : Stage A V → Option A
  | .locked a | .unlock a => some a
  | _ => none

/-- An addition of `val` to `word` that has given `result`. -/
structure Addition (A V : Type) where
  word : A
  val : V
  result : V

/-- The addition that has been made and not returned. -/
def Stage.pending : Stage A V → List (Addition A V)
  | .added a v r => [⟨a, v, r⟩]
  | _ => []

/-- `held` says which locks a processor has got and not begun to give back, `log` is the
order in which the counters have been written, and `returned` are the additions that have
returned to a processor. -/
structure Sys (C A V : Type) where
  bus : Bus C A V
  stage : C → Stage A V
  held : C → A → Prop
  log : List (C × Addition A V)
  returned : C → List (Addition A V)

variable [DecidableEq C] [DecidableEq A] [Zero V] [One V] [Add V]

/-- What the processor `c` does next in a call, with the addition it makes. -/
inductive Move (c : C) : Bus C A V → Stage A V → Bus C A V → Stage A V →
    Option (Addition A V) → Prop where
  | idle (b : Bus C A V) (st : Stage A V) : Move c b st b st none
  | link (b : Bus C A V) (a : A) :
      Move c b (.lock a) (b.loadLinked c a) (.seen a (b.mem a)) none
  | busy (b : Bus C A V) (a : A) (v : V) (hv : v ≠ 0) : Move c b (.seen a v) b (.lock a) none
  | grab (b : Bus C A V) (a : A) (hlink : b.link c = some a) :
      Move c b (.seen a 0) (b.store a 1) (.locked a) none
  | miss (b : Bus C A V) (a : A) :
      Move c b (.seen a 0) (b.unlink c) (.lock a) none
  | free (b : Bus C A V) (a : A) : Move c b (.unlock a) (b.store a 0) (.unlocked a) none
  | linkSum (b : Bus C A V) (a : A) (v : V) :
      Move c b (.add a v) (b.loadLinked c a) (.sum a v (b.mem a)) none
  | sum (b : Bus C A V) (a : A) (v x : V) (hlink : b.link c = some a) :
      Move c b (.sum a v x) (b.store a (x + v)) (.added a v (x + v)) (some ⟨a, v, x + v⟩)
  | missSum (b : Bus C A V) (a : A) (v x : V) :
      Move c b (.sum a v x) (b.unlink c) (.add a v) none
  | fetchAdd (b : Bus C A V) (a : A) (v : V) :
      Move c b (.add a v) (b.store a (b.mem a + v)) (.added a v (b.mem a + v))
        (some ⟨a, v, b.mem a + v⟩)

/-- One step of one processor, or the loss of a link.  The locks are the words of `L`, the
counters those of `K`; a processor gives back only what it holds, and touches neither
outside the calls. -/
inductive Step (L K : A → Prop) : Sys C A V → Sys C A V → Prop where
  | move (s : Sys C A V) (c : C) {b : Bus C A V} {st : Stage A V} {l : Option (Addition A V)}
      (h : Move c s.bus (s.stage c) b st l) :
      Step L K s { s with
        bus := b
        stage := Function.update s.stage c st
        log := s.log ++ l.toList.map (c, ·) }
  | callLock (s : Sys C A V) (c : C) (a : A) (hc : s.stage c = .client) (ha : L a) :
      Step L K s { s with stage := Function.update s.stage c (.lock a) }
  | callUnlock (s : Sys C A V) (c : C) (a : A) (hc : s.stage c = .client) (ha : s.held c a) :
      Step L K s { s with
        stage := Function.update s.stage c (.unlock a)
        held := Function.update s.held c fun x => s.held c x ∧ x ≠ a }
  | callAdd (s : Sys C A V) (c : C) (a : A) (v : V) (hc : s.stage c = .client) (ha : K a) :
      Step L K s { s with stage := Function.update s.stage c (.add a v) }
  | returnLock (s : Sys C A V) (c : C) (a : A) (hc : s.stage c = .locked a) :
      Step L K s { s with
        stage := Function.update s.stage c .client
        held := Function.update s.held c fun x => s.held c x ∨ x = a }
  | returnUnlock (s : Sys C A V) (c : C) (a : A) (hc : s.stage c = .unlocked a) :
      Step L K s { s with stage := Function.update s.stage c .client }
  | returnAdd (s : Sys C A V) (c : C) (a : A) (v r : V) (hc : s.stage c = .added a v r) :
      Step L K s { s with
        stage := Function.update s.stage c .client
        returned := Function.update s.returned c (s.returned c ++ [⟨a, v, r⟩]) }
  | elsewhere (s : Sys C A V) (b : Bus C A V)
      (h : Bus.Elsewhere (fun a => L a ∨ K a) s.bus b) : Step L K s { s with bus := b }
  | lose (s : Sys C A V) (c : C) : Step L K s { s with bus := s.bus.unlink c }

variable {L K : A → Prop} {s s' : Sys C A V} {b b' : Bus C A V} {st st' : Stage A V}
  {l : Option (Addition A V)} {c d : C} {a : A} {v : V}

namespace Move

/-- The other processors' links that stand are to words that have not changed. -/
theorem linkKept (h : Move c b st b' st' l) (hd : d ≠ c) : b.LinkKept b' d := by
  cases h with
  | idle => exact .refl b d
  | link a => exact Bus.linkKept_loadLinked hd
  | busy => exact .refl b d
  | grab => exact Bus.linkKept_store
  | miss => exact Bus.linkKept_unlink
  | free => exact Bus.linkKept_store
  | linkSum => exact Bus.linkKept_loadLinked hd
  | sum => exact Bus.linkKept_store
  | missSum => exact Bus.linkKept_unlink
  | fetchAdd => exact Bus.linkKept_store

theorem lockWord_eq (h : Move c b st b' st' l) : st'.lockWord = st.lockWord := by
  cases h <;> rfl

theorem counter_eq (h : Move c b st b' st' l) : st'.counter = st.counter := by
  cases h <;> rfl

theorem eq_of_unlock (h : Move c b st b' st' l) (hst : st' = .unlock a) : st = st' := by
  cases h <;> first | rfl | exact absurd hst (by simp)

/-- A word that is not the one of the call keeps its value. -/
theorem mem_eq (h : Move c b st b' st' l) (hl : st.lockWord ≠ some a)
    (hk : st.counter ≠ some a) : b'.mem a = b.mem a := by
  have hne : ∀ {x : A}, some x ≠ some a → a ≠ x := fun hx hax => hx (congrArg some hax.symm)
  cases h with
  | idle | link | busy | miss | linkSum | missSum => rfl
  | grab x | free x => exact Function.update_of_ne (hne hl) ..
  | sum x | fetchAdd x => exact Function.update_of_ne (hne hk) ..

/-- What has been read is what the word holds, while the link stands. -/
theorem read_fresh (h : Move c b st b' st' l)
    (hst : ∀ a v, st.read = some (a, v) → b.link c = some a → b.mem a = v) :
    ∀ a v, st'.read = some (a, v) → b'.link c = some a → b'.mem a = v := by
  intro a v hread hlink
  cases h with
  | idle => exact hst a v hread hlink
  | link x | linkSum x =>
    obtain ⟨rfl, rfl⟩ := Prod.mk.inj (Option.some.inj hread)
    rfl
  | busy | grab | miss | free | sum | missSum | fetchAdd => exact absurd hread (by simp [Stage.read])

theorem pending_eq (h : Move c b st b' st' l) : st'.pending = st.pending ++ l.toList := by
  cases h <;> simp [Stage.pending]

end Move

/-! ## Calls stay with their words -/

omit [DecidableEq A] [Zero V] [One V] [Add V] in
theorem update_stage_cases {f : C → Stage A V} {P : C → Stage A V → Prop} (hc : P c st)
    (hd : ∀ d, d ≠ c → P d (f d)) (d : C) : P d (Function.update f c st d) := by
  by_cases h : d = c
  · subst h
    rwa [Function.update_self]
  · rw [Function.update_of_ne h]
    exact hd d h

structure Placed (L K : A → Prop) (s : Sys C A V) : Prop where
  lockWord : ∀ c a, (s.stage c).lockWord = some a → L a
  counter : ∀ c a, (s.stage c).counter = some a → K a
  held : ∀ c a, s.held c a → L a
  giving : ∀ c a, s.stage c = .unlock a → ¬ s.held c a

omit [DecidableEq A] [Zero V] [One V] [Add V] in
/-- A step of one processor, given by its stage and its locks afterwards. -/
theorem Placed.of_update (h : Placed L K s) (hstage : s'.stage = Function.update s.stage c st')
    (hheld : ∀ d, d ≠ c → s'.held d = s.held d) (hl : ∀ a, st'.lockWord = some a → L a)
    (hk : ∀ a, st'.counter = some a → K a) (hh : ∀ a, s'.held c a → L a)
    (hg : ∀ a, st' = .unlock a → ¬ s'.held c a) : Placed L K s' := by
  constructor
  · rw [hstage]
    exact update_stage_cases (P := fun _ st => ∀ a, st.lockWord = some a → L a) hl
      fun d _ => h.lockWord d
  · rw [hstage]
    exact update_stage_cases (P := fun _ st => ∀ a, st.counter = some a → K a) hk
      fun d _ => h.counter d
  · intro d a hd
    by_cases hdc : d = c
    · rw [hdc] at hd
      exact hh a hd
    · rw [hheld d hdc] at hd
      exact h.held d a hd
  · rw [hstage]
    refine update_stage_cases (P := fun d st => ∀ a, st = .unlock a → ¬ s'.held d a) hg ?_
    intro d hd
    rw [hheld d hd]
    exact h.giving d

theorem Placed.step (h : Placed L K s) (hs : Step L K s s') : Placed L K s' := by
  cases hs with
  | move c hm =>
    refine h.of_update rfl (fun _ _ => rfl) ?_ ?_ (h.held c) ?_
    · intro a ha
      exact h.lockWord c a (hm.lockWord_eq ▸ ha)
    · intro a ha
      exact h.counter c a (hm.counter_eq ▸ ha)
    · intro a ha
      exact h.giving c a ((hm.eq_of_unlock ha).trans ha)
  | callLock c a hc ha =>
    refine h.of_update rfl (fun _ _ => rfl) ?_ (by simp [Stage.counter]) (h.held c) (by simp)
    intro x hx
    rwa [← Option.some.inj hx]
  | callUnlock c a hc ha =>
    refine h.of_update rfl (fun d hd => Function.update_of_ne hd ..) ?_ (by simp [Stage.counter])
      ?_ ?_
    · intro x hx
      rw [← Option.some.inj hx]
      exact h.held c a ha
    · intro x hx
      simp only [Function.update_self] at hx
      exact h.held c x hx.1
    · intro x hx
      simp only [Function.update_self]
      rintro ⟨-, hne⟩
      exact hne (Stage.unlock.inj hx).symm
  | callAdd c a v hc ha =>
    refine h.of_update rfl (fun _ _ => rfl) (by simp [Stage.lockWord]) ?_ (h.held c) (by simp)
    intro x hx
    rwa [← Option.some.inj hx]
  | returnLock c a hc =>
    refine h.of_update rfl (fun d hd => Function.update_of_ne hd ..) (by simp [Stage.lockWord])
      (by simp [Stage.counter]) ?_ (by simp)
    intro x hx
    simp only [Function.update_self] at hx
    rcases hx with hx | rfl
    · exact h.held c x hx
    · exact h.lockWord c x (by rw [hc]; rfl)
  | returnUnlock c a hc =>
    exact h.of_update rfl (fun _ _ => rfl) (by simp [Stage.lockWord]) (by simp [Stage.counter])
      (h.held c) (by simp)
  | returnAdd c a v r hc =>
    exact h.of_update rfl (fun _ _ => rfl) (by simp [Stage.lockWord]) (by simp [Stage.counter])
      (h.held c) (by simp)
  | elsewhere b hb => exact ⟨h.lockWord, h.counter, h.held, h.giving⟩
  | lose c => exact ⟨h.lockWord, h.counter, h.held, h.giving⟩

/-! ## What has been read stands with the link -/

def Fresh (s : Sys C A V) : Prop :=
  ∀ c a v, (s.stage c).read = some (a, v) → s.bus.link c = some a → s.bus.mem a = v

theorem Fresh.step (h : Fresh s) (hp : Placed L K s) (hs : Step L K s s') : Fresh s' := by
  have hkept : ∀ {b : Bus C A V} {d : C}, s.bus.LinkKept b d → ∀ a v,
      (s.stage d).read = some (a, v) → b.link d = some a → b.mem a = v := by
    intro b d hb a v hread hlink
    obtain ⟨hl, hm⟩ := hb a hlink
    rw [hm]
    exact h d a v hread hl
  cases hs with
  | @move c b st l hm =>
    exact update_stage_cases
      (P := fun d st => ∀ a v, st.read = some (a, v) → b.link d = some a → b.mem a = v)
      (hm.read_fresh (h c)) fun d hd => hkept (hm.linkKept hd)
  | callLock c a | callUnlock c a | callAdd c a v | returnLock c a | returnUnlock c a
  | returnAdd c a v r =>
    exact update_stage_cases
      (P := fun d st => ∀ a v, st.read = some (a, v) → s.bus.link d = some a → s.bus.mem a = v)
      (fun _ _ hread => absurd hread (by simp [Stage.read])) fun d _ => h d
  | elsewhere b hb =>
    intro d a v hread hlink
    have ha : L a ∨ K a := by
      cases hst : s.stage d with
      | seen x w =>
        rw [hst] at hread
        rw [← (Prod.mk.inj (Option.some.inj hread)).1]
        exact .inl (hp.lockWord d x (by rw [hst]; rfl))
      | sum x w y =>
        rw [hst] at hread
        rw [← (Prod.mk.inj (Option.some.inj hread)).1]
        exact .inr (hp.counter d x (by rw [hst]; rfl))
      | client | lock | locked | unlock | unlocked | add | added =>
        rw [hst] at hread
        exact absurd hread (by simp [Stage.read])
    rw [hb.mem_eq ha]
    exact h d a v hread (hb.link_of_link ha hlink)
  | lose c =>
    intro d a v hread hlink
    exact hkept Bus.linkKept_unlink a v hread hlink

/-! ## A lock has one holder -/

/-- The processor has the lock: it holds it, or the call that gets it or gives it back is
at a point where it has it. -/
def Sys.Owns (s : Sys C A V) (c : C) (a : A) : Prop :=
  s.held c a ∨ (s.stage c).owned = some a

/-- The word of a lock is zero when nobody has the lock, and one when somebody has. -/
def LockOk (s : Sys C A V) (a : A) : Prop :=
  (s.bus.mem a = 0 ∧ ∀ c, ¬ s.Owns c a) ∨ (s.bus.mem a = 1 ∧ ∃ c, ∀ d, s.Owns d a ↔ d = c)

omit [DecidableEq C] [DecidableEq A] [Add V] in
theorem LockOk.same (h : LockOk s a) (hmem : s'.bus.mem a = s.bus.mem a)
    (hown : ∀ d, s'.Owns d a ↔ s.Owns d a) : LockOk s' a := by
  unfold LockOk
  simp only [hmem, hown]
  exact h

omit [DecidableEq A] [Zero V] [One V] [Add V] in
/-- Who has a lock changes only with the locks and the stage of one processor. -/
theorem owns_update_iff (c : C) (st' : Stage A V)
    (hstage : s'.stage = Function.update s.stage c st')
    (hheld : ∀ d, d ≠ c → s'.held d = s.held d)
    (hc : (s'.held c a ∨ st'.owned = some a) ↔ s.Owns c a) (d : C) :
    s'.Owns d a ↔ s.Owns d a := by
  unfold Sys.Owns
  by_cases hd : d = c
  · rw [hd, hstage, Function.update_self]
    exact hc
  · rw [hstage, Function.update_of_ne hd, hheld d hd]

/-- What a step of a call does to the lock `a`. -/
theorem Move.lock_cases (h : Move c b st b' st' l) (hk : st.counter ≠ some a) :
    (b'.mem a = b.mem a ∧ (st'.owned = some a ↔ st.owned = some a)) ∨
      (st = .seen a 0 ∧ b.link c = some a ∧ b'.mem a = 1 ∧ st' = .locked a) ∨
      (st = .unlock a ∧ b'.mem a = 0 ∧ st' = .unlocked a) := by
  by_cases hl : st.lockWord = some a
  · cases h with
    | idle | link | busy | miss | linkSum | missSum => exact .inl ⟨rfl, by simp [Stage.owned]⟩
    | grab x hlink =>
      obtain rfl : x = a := Option.some.inj hl
      exact .inr (.inl ⟨rfl, hlink, Function.update_self .., rfl⟩)
    | free x =>
      obtain rfl : x = a := Option.some.inj hl
      exact .inr (.inr ⟨rfl, Function.update_self .., rfl⟩)
    | sum | fetchAdd => exact absurd hl (by simp [Stage.lockWord])
  · refine .inl ⟨h.mem_eq hl hk, ?_⟩
    have hown : ∀ {st : Stage A V}, st.owned = some a → st.lockWord = some a := by
      intro st
      cases st <;> simp [Stage.owned, Stage.lockWord]
    exact ⟨fun ho => absurd (h.lockWord_eq ▸ hown ho) hl, fun ho => absurd (hown ho) hl⟩

variable [NeZero (1 : V)]

theorem LockOk.step (h : LockOk s a) (ha : L a) (hLK : ∀ a, L a → ¬ K a) (hp : Placed L K s)
    (hf : Fresh s) (hs : Step L K s s') : LockOk s' a := by
  cases hs with
  | @move c b st l hm =>
    obtain ⟨hmem, hown⟩ | ⟨hst, hlink, hmem, rfl⟩ | ⟨hst, hmem, rfl⟩ :=
      hm.lock_cases fun hk => hLK a ha (hp.counter c a hk)
    · refine h.same hmem (owns_update_iff c st rfl (fun _ _ => rfl) ?_)
      rw [hown]
      exact Iff.rfl
    · -- the word was zero, since the link stood: nobody had the lock
      have hzero : s.bus.mem a = 0 := hf c a 0 (by rw [hst]; rfl) hlink
      have hnone : ∀ d, ¬ s.Owns d a := by
        rcases h with ⟨-, hnone⟩ | ⟨hone, -⟩
        · exact hnone
        · exact absurd (hone.symm.trans hzero) (NeZero.ne 1)
      refine .inr ⟨hmem, c, fun d => ⟨?_, ?_⟩⟩
      · rintro (hd | hd)
        · exact absurd (.inl hd) (hnone d)
        · by_contra hne
          simp only [Function.update_of_ne hne] at hd
          exact hnone d (.inr hd)
      · rintro rfl
        exact .inr (by simp only [Function.update_self]; rfl)
    · have hc : s.Owns c a := .inr (by rw [hst]; rfl)
      have hall : ∀ d, s.Owns d a ↔ d = c := by
        rcases h with ⟨-, hnone⟩ | ⟨-, e, he⟩
        · exact absurd hc (hnone c)
        · rwa [(he c).mp hc]
      refine .inl ⟨hmem, fun d => ?_⟩
      rintro (hd | hd)
      · obtain rfl := (hall d).mp (.inl hd)
        exact hp.giving d a hst hd
      · by_cases hdc : d = c
        · simp only [hdc, Function.update_self] at hd
          exact absurd hd (by simp [Stage.owned])
        · simp only [Function.update_of_ne hdc] at hd
          exact hdc ((hall d).mp (.inr hd))
  | callLock c x hc hx =>
    refine h.same rfl (owns_update_iff c (.lock x) rfl (fun _ _ => rfl) ?_)
    simp [Sys.Owns, Stage.owned, hc]
  | callUnlock c x hc hx =>
    refine h.same rfl (owns_update_iff c (.unlock x) rfl
      (fun d hd => Function.update_of_ne hd ..) ?_)
    simp only [Function.update_self, Sys.Owns, Stage.owned, hc, Option.some.injEq, reduceCtorEq,
      or_false]
    constructor
    · rintro (hx' | rfl)
      · exact hx'.1
      · exact hx
    · intro ha'
      exact (eq_or_ne x a).symm.imp_left fun hne => ⟨ha', hne.symm⟩
  | callAdd c x v hc hx =>
    refine h.same rfl (owns_update_iff c (.add x v) rfl (fun _ _ => rfl) ?_)
    simp [Sys.Owns, Stage.owned, hc]
  | returnLock c x hc =>
    refine h.same rfl (owns_update_iff c .client rfl
      (fun d hd => Function.update_of_ne hd ..) ?_)
    simp [Sys.Owns, Stage.owned, hc, eq_comm]
  | returnUnlock c x hc =>
    refine h.same rfl (owns_update_iff c .client rfl (fun _ _ => rfl) ?_)
    simp [Sys.Owns, Stage.owned, hc]
  | returnAdd c x v r hc =>
    refine h.same rfl (owns_update_iff c .client rfl (fun _ _ => rfl) ?_)
    simp [Sys.Owns, Stage.owned, hc]
  | elsewhere b hb => exact h.same (hb.mem_eq (.inl ha)) fun _ => Iff.rfl
  | lose c => exact h.same rfl fun _ => Iff.rfl

/-! ## The additions have an order -/

omit [NeZero (1 : V)]

/-- One after the other, the additions bring the counters from `init` to `m`, each with what
it leaves as its result. -/
inductive Counts (init : A → V) : List (C × Addition A V) → (A → V) → Prop where
  | nil : Counts init [] init
  | snoc {log : List (C × Addition A V)} {m : A → V} (h : Counts init log m) (c : C) (a : A)
      (v : V) :
      Counts init (log ++ [(c, ⟨a, v, m a + v⟩)]) (Function.update m a (m a + v))

/-- The additions of one processor, in their order. -/
def mine (c : C) (log : List (C × Addition A V)) : List (Addition A V) :=
  (log.filter fun e => e.1 = c).map Prod.snd

/-- The log tells what the counters hold, and for each processor what its calls have
returned, and what the call under way will return when it has made its addition. -/
structure Logged (K : A → Prop) (init : A → V) (s : Sys C A V) : Prop where
  counts : ∃ m, Counts init s.log m ∧ ∀ a, K a → s.bus.mem a = m a
  mine : ∀ c, mine c s.log = s.returned c ++ (s.stage c).pending

omit [DecidableEq A] [Zero V] [One V] [Add V] in
theorem mine_append (log : List (C × Addition A V)) (es : List (Addition A V)) :
    mine d (log ++ es.map (c, ·)) = mine d log ++ if d = c then es else [] := by
  unfold mine
  rw [List.filter_append, List.map_append]
  congr 1
  by_cases hd : d = c
  · subst hd
    simp [List.filter_map, Function.comp_def]
  · simp [List.filter_map, Function.comp_def, hd, Ne.symm hd]

/-- What a step of a call does to the counters. -/
theorem Move.count_cases (h : Move c b st b' st' l)
    (hst : ∀ a v, st.read = some (a, v) → b.link c = some a → b.mem a = v) :
    (l = none ∧ ∀ a, st.lockWord ≠ some a → b'.mem a = b.mem a) ∨
      ∃ x v, st.counter = some x ∧ l = some ⟨x, v, b.mem x + v⟩ ∧
        b'.mem = Function.update b.mem x (b.mem x + v) := by
  have hne : ∀ {x a : A}, some x ≠ some a → a ≠ x := fun hx hax => hx (congrArg some hax.symm)
  cases h with
  | idle | link | busy | miss | linkSum | missSum => exact .inl ⟨rfl, fun _ _ => rfl⟩
  | grab x | free x => exact .inl ⟨rfl, fun a ha => Function.update_of_ne (hne ha) ..⟩
  | sum x v y hlink =>
    obtain rfl := hst x y rfl hlink
    exact .inr ⟨x, v, rfl, rfl, rfl⟩
  | fetchAdd x v => exact .inr ⟨x, v, rfl, rfl, rfl⟩

omit [Zero V] [One V] in
/-- A step that adds nothing to the log. -/
theorem Logged.of_update {init : A → V} (h : Logged K init s)
    (hstage : s'.stage = Function.update s.stage c st') (hlog : s'.log = s.log)
    (hmem : ∀ a, K a → s'.bus.mem a = s.bus.mem a)
    (hret : ∀ d, d ≠ c → s'.returned d = s.returned d)
    (hc : s'.returned c ++ st'.pending = s.returned c ++ (s.stage c).pending) :
    Logged K init s' := by
  obtain ⟨m, hcounts, hm⟩ := h.counts
  refine ⟨⟨m, hlog ▸ hcounts, fun a ha => (hmem a ha).trans (hm a ha)⟩, fun d => ?_⟩
  rw [hlog, h.mine d, hstage]
  by_cases hd : d = c
  · rw [hd, Function.update_self, hc]
  · rw [Function.update_of_ne hd, hret d hd]

theorem Logged.step {init : A → V} (h : Logged K init s) (hLK : ∀ a, L a → ¬ K a)
    (hp : Placed L K s) (hf : Fresh s) (hs : Step L K s s') : Logged K init s' := by
  cases hs with
  | @move c b st l hm =>
    obtain ⟨m, hcounts, hmem⟩ := h.counts
    refine ⟨?_, fun d => ?_⟩
    · rcases hm.count_cases (hf c) with ⟨rfl, hsame⟩ | ⟨x, v, hx, rfl, hb⟩
      · refine ⟨m, by simpa using hcounts, fun a ha => ?_⟩
        exact (hsame a fun hl => hLK a (hp.lockWord c a hl) ha).trans (hmem a ha)
      · have hmx : s.bus.mem x = m x := hmem x (hp.counter c x hx)
        rw [hmx] at hb
        refine ⟨Function.update m x (m x + v), ?_, fun a ha => ?_⟩
        · simp only [hmx]
          exact hcounts.snoc c x v
        · rw [hb]
          by_cases hax : a = x
          · rw [hax, Function.update_self, Function.update_self]
          · rw [Function.update_of_ne hax, Function.update_of_ne hax, hmem a ha]
    · simp only [mine_append, h.mine d]
      by_cases hd : d = c
      · rw [if_pos hd, hd, Function.update_self, hm.pending_eq, List.append_assoc]
      · rw [if_neg hd, Function.update_of_ne hd, List.append_nil]
  | callLock c x hc hx | callAdd c x v hc hx =>
    exact h.of_update (c := c) rfl rfl (fun _ _ => rfl) (fun _ _ => rfl) (by rw [hc]; rfl)
  | callUnlock c x hc hx =>
    exact h.of_update (c := c) rfl rfl (fun _ _ => rfl) (fun _ _ => rfl) (by rw [hc]; rfl)
  | returnLock c x hc | returnUnlock c x hc =>
    exact h.of_update (c := c) rfl rfl (fun _ _ => rfl) (fun _ _ => rfl) (by rw [hc]; rfl)
  | returnAdd c x v r hc =>
    refine h.of_update (c := c) rfl rfl (fun _ _ => rfl) (fun d hd => Function.update_of_ne hd ..) ?_
    simp only [Function.update_self, hc]
    exact List.append_nil _
  | elsewhere b hb =>
    obtain ⟨m, hcounts, hmem⟩ := h.counts
    exact ⟨⟨m, hcounts, fun a ha => (hb.mem_eq (.inr ha)).trans (hmem a ha)⟩, h.mine⟩
  | lose c => exact ⟨h.counts, h.mine⟩

/-! ## Whole runs -/

/-- No call is under way, no lock is held and nothing has been added. -/
structure Start (L : A → Prop) (init : A → V) (s : Sys C A V) : Prop where
  mem : s.bus.mem = init
  free : ∀ a, L a → init a = 0
  stage : ∀ c, s.stage c = .client
  held : ∀ c a, ¬ s.held c a
  log : s.log = []
  returned : ∀ c, s.returned c = []

structure Inv (L K : A → Prop) (init : A → V) (s : Sys C A V) : Prop where
  placed : Placed L K s
  fresh : Fresh s
  locks : ∀ a, L a → LockOk s a
  logged : Logged K init s

variable {init : A → V}

theorem Inv.start (h : Start L init s) : Inv L K init s where
  placed := by
    constructor <;> intro c a ha
    · simp [h.stage c, Stage.lockWord] at ha
    · simp [h.stage c, Stage.counter] at ha
    · exact absurd ha (h.held c a)
    · exact h.held c a
  fresh c a v hread := by simp [h.stage c, Stage.read] at hread
  locks a ha := by
    refine .inl ⟨by rw [h.mem, h.free a ha], fun c hc => ?_⟩
    rcases hc with hc | hc
    · exact h.held c a hc
    · simp [h.stage c, Stage.owned] at hc
  logged := by
    refine ⟨⟨init, h.log ▸ .nil, fun a _ => congrFun h.mem a⟩, fun c => ?_⟩
    rw [h.log, h.returned c, h.stage c]
    rfl

theorem Inv.step [NeZero (1 : V)] (h : Inv L K init s) (hLK : ∀ a, L a → ¬ K a)
    (hs : Step L K s s') : Inv L K init s' where
  placed := h.placed.step hs
  fresh := h.fresh.step h.placed hs
  locks a ha := (h.locks a ha).step ha hLK h.placed h.fresh hs
  logged := h.logged.step hLK h.placed h.fresh hs

/-- A lock that is held is held by one processor, and its word is one. -/
theorem Inv.held_unique [NeZero (1 : V)] (h : Inv L K init s) (hc : s.held c a) :
    s.bus.mem a = 1 ∧ ∀ d, s.Owns d a → d = c := by
  rcases h.locks a (h.placed.held c a hc) with ⟨-, hnone⟩ | ⟨hone, e, he⟩
  · exact absurd (.inl hc) (hnone c)
  · have hce := (he c).mp (.inl hc)
    exact ⟨hone, fun d hd => ((he d).mp hd).trans hce.symm⟩

theorem Step.log_prefix (h : Step L K s s') : s.log <+: s'.log := by
  cases h with
  | move c hm => exact List.prefix_append ..
  | callLock | callUnlock | callAdd | returnLock | returnUnlock | returnAdd | elsewhere | lose =>
    exact List.prefix_rfl

omit [DecidableEq C] in
/-- What a counter holds is what it held at the start and all that has been added to it. -/
theorem Counts.eq_sum {V : Type} [AddMonoid V] {init m : A → V} {log : List (C × Addition A V)}
    (h : Counts init log m) (a : A) :
    m a = init a + ((log.filter fun e => e.2.word = a).map fun e => e.2.val).sum := by
  induction h with
  | nil => simp
  | snoc h c x v ih =>
    rw [List.filter_append, List.map_append, List.sum_append, ← add_assoc, ← ih]
    by_cases hax : x = a
    · subst hax
      simp
    · simp [Function.update_of_ne (Ne.symm hax), hax]

end Ko6.Lib.LinkedSync
