import Ko6.Hal.Cpu
import Ko6.Lib.LinkedSync
import Ko6.Lib.Runs

set_option autoImplicit false

/-!
# Hal: spin locks and atomic additions on several processors

Each processor runs its own program and calls `spin_lock`, `spin_unlock` and `atomic_add`
from it.  The processors take turns in any order, one instruction at a time, and a link may
break at any time.  `Text` is what is asked of a file `atomic.S`; the files of the two kinds
of processors are in the modules behind this one.
-/

namespace Ko6.Hal.Atomic

open Lib Lib.LinkedSync

/-- A call of the program, with its arguments. -/
inductive Call where
  | spinLock (lock : Word)
  | spinUnlock (lock : Word)
  | atomicAdd (var val : Word)

/-- A file `atomic.S`: what the instruction at a place does, the places of the labels, and the
registers of the arguments and the result. -/
structure Text (C : Type) where
  Cpu : Type
  exec : C → Nat → Cpu → Mem C → Option (Cpu × Mem C × Next)
  spinLock : Nat
  spinUnlock : Nat
  atomicAdd : Nat
  arg0 : Cpu → Word
  arg1 : Cpu → Word
  result : Cpu → Word

/-- A processor is in its program, or at a place of the text in a call. -/
inductive Place where
  | program
  | text (call : Call) (n : Nat)

/-- `held` are the locks that a processor's program has got and not begun to give back,
`returned` the additions it has made. -/
structure Sys {C : Type} (T : Text C) where
  bus : Mem C
  place : C → Place
  cpu : C → T.Cpu
  held : C → Word → Prop
  returned : C → List (Addition Word Word)

namespace Sys

variable {C : Type} {T : Text C} [DecidableEq C]

/-- The program of `c` goes on behind its call. -/
def finish (s : Sys T) (c : C) (call : Call) : Sys T :=
  let s := { s with place := Function.update s.place c .program }
  match call with
  | .spinLock lock =>
    { s with held := Function.update s.held c fun x => s.held c x ∨ x = lock }
  | .spinUnlock _ => s
  | .atomicAdd var val =>
    { s with
      returned := Function.update s.returned c
        (s.returned c ++ [⟨var, val, T.result (s.cpu c)⟩]) }

/-- The processor executes the instruction it is at. -/
def tick (s : Sys T) (c : C) : Sys T :=
  match s.place c with
  | .program => s
  | .text call n =>
    match T.exec c n (s.cpu c) s.bus with
    | none => s
    | some (cpu, bus, out) =>
      let s := { s with bus := bus, cpu := Function.update s.cpu c cpu }
      match out with
      | .next => { s with place := Function.update s.place c (.text call (n + 1)) }
      | .goto m => { s with place := Function.update s.place c (.text call m) }
      | .call _ => s
      | .leave _ => s.finish c call

/-- One step of one processor.  The program calls with its arguments in their registers and
whatever else in the others; it gives back only locks it holds, and its own instructions do
not touch the words of locks (`L`) and of counters (`K`). -/
inductive Step (L K : Word → Prop) : Sys T → Sys T → Prop where
  | tick (s : Sys T) (c : C) : Step L K s (s.tick c)
  | callSpinLock (s : Sys T) (c : C) (cpu : T.Cpu) (hc : s.place c = .program)
      (hl : L (T.arg0 cpu)) :
      Step L K s { s with
        place := Function.update s.place c (.text (.spinLock (T.arg0 cpu)) T.spinLock)
        cpu := Function.update s.cpu c cpu }
  | callSpinUnlock (s : Sys T) (c : C) (cpu : T.Cpu) (hc : s.place c = .program)
      (hl : s.held c (T.arg0 cpu)) :
      Step L K s { s with
        place := Function.update s.place c (.text (.spinUnlock (T.arg0 cpu)) T.spinUnlock)
        cpu := Function.update s.cpu c cpu
        held := Function.update s.held c fun x => s.held c x ∧ x ≠ T.arg0 cpu }
  | callAtomicAdd (s : Sys T) (c : C) (cpu : T.Cpu) (hc : s.place c = .program)
      (hk : K (T.arg0 cpu)) :
      Step L K s { s with
        place := Function.update s.place c
          (.text (.atomicAdd (T.arg0 cpu) (T.arg1 cpu)) T.atomicAdd)
        cpu := Function.update s.cpu c cpu }
  | program (s : Sys T) (bus : Mem C) (h : Bus.Elsewhere (fun a => L a ∨ K a) s.bus bus) :
      Step L K s { s with bus := bus }
  | lose (s : Sys T) (c : C) : Step L K s { s with bus := s.bus.unlink c }

/-- All processors are in their programs, and the locks are free. -/
structure Start (L : Word → Prop) (init : Word → Word) (s : Sys T) : Prop where
  mem : s.bus.mem = init
  free : ∀ a, L a → init a = 0
  place : ∀ c, s.place c = .program
  held : ∀ c a, ¬ s.held c a
  returned : ∀ c, s.returned c = []

/-- The states of all runs. -/
inductive Reachable (L K : Word → Prop) (init : Word → Word) : Sys T → Prop where
  | start {s : Sys T} (h : Start L init s) : Reachable L K init s
  | step {s s' : Sys T} (h : Reachable L K init s) (hs : Step L K s s') : Reachable L K init s'

end Sys

/-! ## What a text has to do -/

/-- The stage in which a call has done its work, with the result in its register. -/
def Call.done (call : Call) (r : Word) : Stage Word Word :=
  match call with
  | .spinLock lock => .locked lock
  | .spinUnlock lock => .unlocked lock
  | .atomicAdd var val => .added var val r

/-- Where a call is after an instruction: in a stage that its new place stands for, or at
its end. -/
def Text.Lands {C : Type} (T : Text C) (At : Call → Nat → T.Cpu → Stage Word Word → Prop)
    (call : Call) (n : Nat) (cpu : T.Cpu) (st : Stage Word Word) : Next → Prop
  | .next => At call (n + 1) cpu st
  | .goto m => At call m cpu st
  | .call _ => False
  | .leave _ => st = call.done (T.result cpu)

/-- `At` tells the stages that the places of a text stand for.  Each instruction makes a move,
or none, and a call returns when its work is done. -/
structure Text.Follows {C : Type} [DecidableEq C] (T : Text C)
    (At : Call → Nat → T.Cpu → Stage Word Word → Prop) : Prop where
  spinLock : ∀ cpu, At (.spinLock (T.arg0 cpu)) T.spinLock cpu (.lock (T.arg0 cpu))
  spinUnlock : ∀ cpu, At (.spinUnlock (T.arg0 cpu)) T.spinUnlock cpu (.unlock (T.arg0 cpu))
  atomicAdd : ∀ cpu, At (.atomicAdd (T.arg0 cpu) (T.arg1 cpu)) T.atomicAdd cpu
    (.add (T.arg0 cpu) (T.arg1 cpu))
  pending : ∀ {call n cpu st}, At call n cpu st →
    ∀ e ∈ st.pending, call = .atomicAdd e.word e.val
  owned : ∀ {call n cpu st a}, At call n cpu st → st.owned = some a →
    call = .spinLock a ∨ call = .spinUnlock a
  exec : ∀ {c call n cpu st b}, At call n cpu st →
    ∃ cpu' b' out st' l, T.exec c n cpu b = some (cpu', b', out) ∧ Move c b st b' st' l ∧
      T.Lands At call n cpu' st' out

/-- The stage a processor is in. -/
def Place.InStage {C : Type} {T : Text C} (At : Call → Nat → T.Cpu → Stage Word Word → Prop)
    (cpu : T.Cpu) (st : Stage Word Word) : Place → Prop
  | .program => st = .client
  | .text call n => At call n cpu st

/-- The processors in their stages, on the same memory. -/
structure Sim {C : Type} {T : Text C} (At : Call → Nat → T.Cpu → Stage Word Word → Prop)
    (s : Sys T) (q : LinkedSync.Sys C Word Word) : Prop where
  bus : q.bus = s.bus
  held : q.held = s.held
  returned : q.returned = s.returned
  stage : ∀ c, (s.place c).InStage At (s.cpu c) (q.stage c)

section
variable {C : Type} [DecidableEq C] {T : Text C} {At : Call → Nat → T.Cpu → Stage Word Word → Prop}
  {L K : Word → Prop} {s s' : Sys T} {q : LinkedSync.Sys C Word Word} {c : C}

/-- One step of the machine is some steps of the stages. -/
abbrev Steps (L K : Word → Prop) :
    LinkedSync.Sys C Word Word → LinkedSync.Sys C Word Word → Prop :=
  Relation.ReflTransGen (LinkedSync.Step L K)

theorem inStage_update {place : C → Place} {cpu : C → T.Cpu} {stage : C → Stage Word Word}
    {pl : Place} {cpu' : T.Cpu} {st : Stage Word Word}
    (h : ∀ d, (place d).InStage At (cpu d) (stage d)) (hc : pl.InStage At cpu' st) (d : C) :
    (Function.update place c pl d).InStage At (Function.update cpu c cpu' d)
      (Function.update stage c st d) := by
  by_cases hd : d = c
  · subst hd
    simpa only [Function.update_self] using hc
  · simpa only [Function.update_of_ne hd] using h d

/-- A call that has done its work returns. -/
theorem finish_sim (At : Call → Nat → T.Cpu → Stage Word Word → Prop) (L K : Word → Prop)
    (c : C) (call : Call) (hbus : q.bus = s.bus) (hheld : q.held = s.held)
    (hret : q.returned = s.returned) (hc : q.stage c = call.done (T.result (s.cpu c)))
    (hd : ∀ d, d ≠ c → (s.place d).InStage At (s.cpu d) (q.stage d)) :
    ∃ q', LinkedSync.Step L K q q' ∧ q'.log = q.log ∧ Sim At (s.finish c call) q' := by
  have hstage : ∀ d, (Function.update s.place c .program d).InStage At (s.cpu d)
      (Function.update q.stage c .client d) := by
    intro d
    by_cases hdc : d = c
    · subst hdc
      simp only [Function.update_self]
      rfl
    · simpa only [Function.update_of_ne hdc] using hd d hdc
  cases call with
  | spinLock lock =>
    exact ⟨_, .returnLock q c lock hc, rfl, hbus, by simp only [hheld, Sys.finish], hret, hstage⟩
  | spinUnlock lock =>
    exact ⟨_, .returnUnlock q c lock hc, rfl, hbus, hheld, hret, hstage⟩
  | atomicAdd var val =>
    exact ⟨_, .returnAdd q c var val _ hc, rfl, hbus, hheld, by simp only [hret, Sys.finish],
      hstage⟩

/-- An instruction makes a move of its stage, and maybe the call returns. -/
theorem tick_sim (hT : T.Follows At) (h : Sim At s q) (c : C) :
    ∃ q', Steps L K q q' ∧ Sim At (s.tick c) q' := by
  have hin := h.stage c
  cases hplace : s.place c with
  | program =>
    have hs : s.tick c = s := by simp only [Sys.tick, hplace]
    rw [hs]
    exact ⟨q, .refl, h⟩
  | text call n =>
    rw [hplace] at hin
    obtain ⟨cpu, b, out, st, l, hexec, hmove, hland⟩ := hT.exec (c := c) (b := s.bus) hin
    rw [← h.bus] at hmove
    have hstep := LinkedSync.Step.move (L := L) (K := K) q c hmove
    cases out with
    | next =>
      have hs : s.tick c = { s with
          bus := b, cpu := Function.update s.cpu c cpu,
          place := Function.update s.place c (.text call (n + 1)) } := by
        simp only [Sys.tick, hplace, hexec]
      rw [hs]
      exact ⟨_, .single hstep, rfl, h.held, h.returned, inStage_update h.stage hland⟩
    | goto m =>
      have hs : s.tick c = { s with
          bus := b, cpu := Function.update s.cpu c cpu,
          place := Function.update s.place c (.text call m) } := by
        simp only [Sys.tick, hplace, hexec]
      rw [hs]
      exact ⟨_, .single hstep, rfl, h.held, h.returned, inStage_update h.stage hland⟩
    | call addr => exact hland.elim
    | leave addr =>
      have hs : s.tick c =
          { s with bus := b, cpu := Function.update s.cpu c cpu }.finish c call := by
        simp only [Sys.tick, hplace, hexec]
      rw [hs]
      obtain ⟨q', hq', -, hsim⟩ := finish_sim At L K c call
        (s := { s with bus := b, cpu := Function.update s.cpu c cpu })
        (q := { q with
          bus := b
          stage := Function.update q.stage c st
          log := q.log ++ l.toList.map (c, ·) })
        rfl h.held h.returned (by simp only [Function.update_self]; exact hland)
        (fun d hd => by simpa only [Function.update_of_ne hd] using h.stage d)
      exact ⟨q', .tail (.single hstep) hq', hsim⟩

theorem Sim.step (hT : T.Follows At) (h : Sim At s q) (hs : Sys.Step L K s s') :
    ∃ q', Steps L K q q' ∧ Sim At s' q' := by
  have hclient : ∀ {c}, s.place c = .program → q.stage c = .client := by
    intro c hc
    have := h.stage c
    rwa [hc] at this
  cases hs with
  | tick c => exact tick_sim hT h c
  | callSpinLock c cpu hc hl =>
    exact ⟨_, .single (.callLock q c _ (hclient hc) hl), h.bus, h.held, h.returned,
      inStage_update h.stage (hT.spinLock cpu)⟩
  | callSpinUnlock c cpu hc hl =>
    rw [← h.held] at hl
    exact ⟨_, .single (.callUnlock q c _ (hclient hc) hl), h.bus, by simp only [h.held], h.returned,
      inStage_update h.stage (hT.spinUnlock cpu)⟩
  | callAtomicAdd c cpu hc hk =>
    exact ⟨_, .single (.callAdd q c _ _ (hclient hc) hk), h.bus, h.held, h.returned,
      inStage_update h.stage (hT.atomicAdd cpu)⟩
  | program b hb =>
    rw [← h.bus] at hb
    exact ⟨_, .single (.elsewhere q b hb), rfl, h.held, h.returned, h.stage⟩
  | lose c =>
    exact ⟨_, .single (.lose q c), by simp only [h.bus], h.held, h.returned, h.stage⟩

/-! ## Runs -/

variable {init : Word → Word} {a : Word}

theorem Steps.inv {q' : LinkedSync.Sys C Word Word} (h : Steps L K q q')
    (hLK : ∀ a, L a → ¬ K a) (hq : LinkedSync.Inv L K init q) : LinkedSync.Inv L K init q' := by
  induction h with
  | refl => exact hq
  | tail _ hs ih => exact ih.step hLK hs

theorem Steps.log_prefix {q' : LinkedSync.Sys C Word Word} (h : Steps L K q q') :
    q.log <+: q'.log := by
  induction h with
  | refl => exact List.prefix_rfl
  | tail _ hs ih => exact ih.trans hs.log_prefix

omit [DecidableEq C] in
/-- Before the first call all stages are at the start. -/
theorem start_sim (At : Call → Nat → T.Cpu → Stage Word Word → Prop)
    (h : Sys.Start L init s) :
    ∃ q : LinkedSync.Sys C Word Word, LinkedSync.Start L init q ∧ Sim At s q := by
  refine ⟨⟨s.bus, fun _ => .client, s.held, [], s.returned⟩,
    ⟨h.mem, h.free, fun _ => rfl, h.held, rfl, h.returned⟩, rfl, rfl, rfl, fun c => ?_⟩
  rw [h.place c]
  rfl

theorem reachable_sim (hT : T.Follows At) (hLK : ∀ a, L a → ¬ K a)
    (h : Sys.Reachable L K init s) :
    ∃ q, LinkedSync.Inv L K init q ∧ Sim At s q := by
  induction h with
  | start h0 =>
    obtain ⟨q, hq, hsim⟩ := start_sim At h0
    exact ⟨q, .start hq, hsim⟩
  | step _ hs ih =>
    obtain ⟨q, hinv, hsim⟩ := ih
    obtain ⟨q', hsteps, hsim'⟩ := hsim.step hT hs
    exact ⟨q', hsteps.inv hLK hinv, hsim'⟩

/-- The lock is held by a program, or a call to get it or to give it back is under way. -/
def Sys.Engaged (s : Sys T) (c : C) (a : Word) : Prop :=
  s.held c a ∨ ∃ n, s.place c = .text (.spinLock a) n ∨ s.place c = .text (.spinUnlock a) n

/-- The word of a lock is zero or one; a lock that a program holds is one, and no other
processor's; and a lock is one only where a processor is engaged with it. -/
theorem lock_excludes (hT : T.Follows At) (hLK : ∀ a, L a → ¬ K a)
    (h : Sys.Reachable L K init s) (ha : L a) :
    (∀ c d, s.held c a → s.held d a → c = d) ∧ (∀ c, s.held c a → s.bus.mem a = 1) ∧
      (s.bus.mem a = 0 ∨ s.bus.mem a = 1 ∧ ∃ c, s.Engaged c a) := by
  obtain ⟨q, hinv, hsim⟩ := reachable_sim hT hLK h
  rw [← hsim.held, ← hsim.bus]
  refine ⟨?_, ?_, ?_⟩
  · intro c d hc hd
    exact ((hinv.held_unique hc).2 d (.inl hd)).symm
  · intro c hc
    exact (hinv.held_unique hc).1
  · rcases hinv.locks a ha with ⟨hzero, -⟩ | ⟨hone, c, hc⟩
    · exact .inl hzero
    · refine .inr ⟨hone, c, ?_⟩
      rcases (hc c).mpr rfl with hheld | howned
      · exact .inl (hsim.held ▸ hheld)
      · have hin := hsim.stage c
        cases hplace : s.place c with
        | program =>
          rw [hplace] at hin
          rw [show q.stage c = .client from hin] at howned
          exact absurd howned (by simp [Stage.owned])
        | text call n =>
          rw [hplace] at hin
          refine .inr ⟨n, ?_⟩
          rcases hT.owned hin howned with rfl | rfl
          · exact .inl hplace
          · exact .inr hplace

/-- `log` is an order of the additions.  One after the other they bring the counters from
`init` to what they hold, and a processor's are those that have returned to it, and the one
under way when it has been made. -/
structure Sys.Linearizes (K : Word → Prop) (init : Word → Word) (s : Sys T)
    (log : List (C × Addition Word Word)) : Prop where
  counts : ∃ m, Counts init log m ∧ ∀ a, K a → s.bus.mem a = m a
  returned : ∀ c, s.place c = .program → mine c log = s.returned c
  pending : ∀ c, mine c log = s.returned c ∨ ∃ e n,
    s.place c = .text (.atomicAdd e.word e.val) n ∧ mine c log = s.returned c ++ [e]

theorem Sim.linearizes (hT : T.Follows At) (h : Sim At s q) (hq : LinkedSync.Inv L K init q) :
    s.Linearizes K init q.log := by
  refine ⟨h.bus ▸ hq.logged.counts, fun c hc => ?_, fun c => ?_⟩
  · have hin := h.stage c
    rw [hc] at hin
    rw [hq.logged.mine c, h.returned, show q.stage c = .client from hin]
    exact List.append_nil _
  · have hin := h.stage c
    rw [hq.logged.mine c, h.returned]
    cases hst : q.stage c with
    | added a v r =>
      refine .inr ⟨⟨a, v, r⟩, ?_⟩
      cases hplace : s.place c with
      | program =>
        rw [hplace, hst] at hin
        exact absurd hin (by simp [Place.InStage])
      | text call n =>
        rw [hplace, hst] at hin
        rw [hT.pending hin ⟨a, v, r⟩ (List.mem_singleton_self _)]
        exact ⟨n, rfl, rfl⟩
    | client | lock | seen | locked | unlock | unlocked | add | sum =>
      exact .inl (List.append_nil _)

/-- In every run the additions have an order, which grows with the run. -/
theorem add_linearizable (hT : T.Follows At) (hLK : ∀ a, L a → ¬ K a) {run : Nat → Sys T}
    (h0 : Sys.Start L init (run 0)) (hrun : ∀ i, Sys.Step L K (run i) (run (i + 1))) :
    ∃ log : Nat → List (C × Addition Word Word),
      (∀ i, log i <+: log (i + 1)) ∧ ∀ i, (run i).Linearizes K init (log i) := by
  have h0 : ∃ q, LinkedSync.Inv L K init q ∧ Sim At (run 0) q := by
    obtain ⟨q, hq, hsim⟩ := start_sim At h0
    exact ⟨q, .start hq, hsim⟩
  have hnext : ∀ i (q : LinkedSync.Sys C Word Word), LinkedSync.Inv L K init q ∧ Sim At (run i) q →
      ∃ q', (LinkedSync.Inv L K init q' ∧ Sim At (run (i + 1)) q') ∧ q.log <+: q'.log := by
    rintro i q ⟨hinv, hsim⟩
    obtain ⟨q', hsteps, hsim'⟩ := hsim.step hT (hrun i)
    exact ⟨q', ⟨hsteps.inv hLK hinv, hsim'⟩, hsteps.log_prefix⟩
  obtain ⟨q, hq, hprefix⟩ := exists_following h0 hnext
  exact ⟨fun i => (q i).log, hprefix, fun i => (hq i).2.linearizes hT (hq i).1⟩

/-! ## A processor on its own -/

/-- Within `k` instructions of `c` alone the call comes to its end. -/
inductive Text.Ends (T : Text C) (c : C) : Nat → Nat → T.Cpu → Mem C → Prop where
  | leave {n k : Nat} {cpu cpu' : T.Cpu} {b b' : Mem C} {addr : Word}
      (h : T.exec c n cpu b = some (cpu', b', .leave addr)) : T.Ends c (k + 1) n cpu b
  | next {n k : Nat} {cpu cpu' : T.Cpu} {b b' : Mem C}
      (h : T.exec c n cpu b = some (cpu', b', .next)) (hrest : T.Ends c k (n + 1) cpu' b') :
      T.Ends c (k + 1) n cpu b
  | goto {n m k : Nat} {cpu cpu' : T.Cpu} {b b' : Mem C}
      (h : T.exec c n cpu b = some (cpu', b', .goto m)) (hrest : T.Ends c k m cpu' b') :
      T.Ends c (k + 1) n cpu b

omit [DecidableEq C] in
theorem Text.Ends.mono {n k k' : Nat} {cpu : T.Cpu} {b : Mem C} (h : T.Ends c k n cpu b)
    (hk : k ≤ k') : T.Ends c k' n cpu b := by
  induction h generalizing k' with
  | leave h =>
    obtain ⟨j, rfl⟩ := Nat.exists_eq_add_of_lt hk
    exact .leave h
  | next h _ ih =>
    obtain ⟨j, rfl⟩ := Nat.exists_eq_succ_of_ne_zero (by omega : k' ≠ 0)
    exact .next h (ih (by omega))
  | goto h _ ih =>
    obtain ⟨j, rfl⟩ := Nat.exists_eq_succ_of_ne_zero (by omega : k' ≠ 0)
    exact .goto h (ih (by omega))

/-- The call of `spin_lock` that comes to its end has got the lock. -/
theorem Text.Ends.held {n k : Nat} {a : Word} (h : T.Ends c k n (s.cpu c) s.bus)
    (hplace : s.place c = .text (.spinLock a) n) :
    ∃ j, j ≤ k ∧ ((fun s => s.tick c)^[j] s).place c = .program ∧
      ((fun s => s.tick c)^[j] s).held c a := by
  generalize hcpu : s.cpu c = cpu at h
  generalize hbus : s.bus = b at h
  induction h generalizing s with
  | leave h =>
    refine ⟨1, by omega, ?_⟩
    simp only [Function.iterate_one, Sys.tick, hplace, hcpu, hbus, h, Sys.finish,
      Function.update_self, or_true, and_self]
  | next h _ ih =>
    obtain ⟨j, hj, hheld⟩ := ih (s := s.tick c)
      (by simp only [Sys.tick, hplace, hcpu, hbus, h, Function.update_self])
      (by simp only [Sys.tick, hplace, hcpu, hbus, h, Function.update_self])
      (by simp only [Sys.tick, hplace, hcpu, hbus, h])
    exact ⟨j + 1, by omega, hheld⟩
  | goto h _ ih =>
    obtain ⟨j, hj, hheld⟩ := ih (s := s.tick c)
      (by simp only [Sys.tick, hplace, hcpu, hbus, h, Function.update_self])
      (by simp only [Sys.tick, hplace, hcpu, hbus, h, Function.update_self])
      (by simp only [Sys.tick, hplace, hcpu, hbus, h])
    exact ⟨j + 1, by omega, hheld⟩

end

end Ko6.Hal.Atomic
