import Ko6.Hal.Atomic
import Ko6.Hal.MipsIsa

set_option autoImplicit false

/-!
# Hal: `atomic.S` of the MIPS
-/

namespace Ko6.Hal.Mips

open Lib Lib.LinkedSync Atomic

/-- The places of the labels. -/
def spin_lock_delay : Nat := 0
def spin_lock : Nat := 2
def spin_unlock : Nat := 9
def atomic_inc : Nat := 12

/-- `bnez` and `beqz` are branches that compare with `$0`. -/
def atomicText : List Instr :=
  [ -- spin_lock_delay:
    .addiu 8 8 (-1),
    .bne 8 0 spin_lock_delay,
    -- spin_lock:
    .ll 2 0 4,
    .li 8 50,
    .bne 2 0 spin_lock_delay,
    -- spin_lock_sc:
    .li 2 1,
    .sc 2 0 4,
    .beq 2 0 spin_lock,
    .jr 31,
    -- spin_unlock:
    .sw 0 0 4,
    .sync,
    .jr 31,
    -- atomic_inc:
    .ll 2 0 4,
    .addu 8 2 5,
    .move 2 8,
    .sc 8 0 4,
    .beq 8 0 atomic_inc,
    .jr 31 ]

/-- The file, for the calls of `atomic.h`: the arguments are in `$4` and `$5`, the result in
`$2`.  The code of `atomic_add` is at the label `atomic_inc`. -/
def atomicS (C : Type) [DecidableEq C] : Text C where
  Cpu := Cpu
  exec c n s b := (atomicText[n]?).map fun i => exec c i s b
  spinLock := spin_lock
  spinUnlock := spin_unlock
  atomicAdd := atomic_inc
  arg0 s := s.reg 4
  arg1 s := s.reg 5
  result s := s.reg 2

/-- The stages of the places.  `$4` and `$5` keep the arguments all along; behind the store
conditional the stage is known by what it has left in its register. -/
inductive At : Call → Nat → Cpu → Stage Word Word → Prop where
  | delay {a : Word} {s : Cpu} (h4 : s.reg 4 = a) (hpos : 0 < (s.reg 8).toNat)
      (hle : (s.reg 8).toNat ≤ 50) : At (.spinLock a) 0 s (.lock a)
  | delayed {a : Word} {s : Cpu} (h4 : s.reg 4 = a) (hlt : (s.reg 8).toNat < 50) :
      At (.spinLock a) 1 s (.lock a)
  | link {a : Word} {s : Cpu} (h4 : s.reg 4 = a) : At (.spinLock a) 2 s (.lock a)
  | linked {a v : Word} {s : Cpu} (h4 : s.reg 4 = a) (h2 : s.reg 2 = v) :
      At (.spinLock a) 3 s (.seen a v)
  | test {a v : Word} {s : Cpu} (h4 : s.reg 4 = a) (h2 : s.reg 2 = v) (h8 : s.reg 8 = 50) :
      At (.spinLock a) 4 s (.seen a v)
  | free {a : Word} {s : Cpu} (h4 : s.reg 4 = a) : At (.spinLock a) 5 s (.seen a 0)
  | grab {a : Word} {s : Cpu} (h4 : s.reg 4 = a) (h2 : s.reg 2 = 1) :
      At (.spinLock a) 6 s (.seen a 0)
  | missed {a : Word} {s : Cpu} (h4 : s.reg 4 = a) (h2 : s.reg 2 = 0) :
      At (.spinLock a) 7 s (.lock a)
  | grabbed {a : Word} {s : Cpu} (h2 : s.reg 2 = 1) : At (.spinLock a) 7 s (.locked a)
  | locked {a : Word} {s : Cpu} : At (.spinLock a) 8 s (.locked a)
  | unlock {a : Word} {s : Cpu} (h4 : s.reg 4 = a) : At (.spinUnlock a) 9 s (.unlock a)
  | sync {a : Word} {s : Cpu} : At (.spinUnlock a) 10 s (.unlocked a)
  | unlocked {a : Word} {s : Cpu} : At (.spinUnlock a) 11 s (.unlocked a)
  | linkSum {a v : Word} {s : Cpu} (h4 : s.reg 4 = a) (h5 : s.reg 5 = v) :
      At (.atomicAdd a v) 12 s (.add a v)
  | linkedSum {a v x : Word} {s : Cpu} (h4 : s.reg 4 = a) (h5 : s.reg 5 = v)
      (h2 : s.reg 2 = x) : At (.atomicAdd a v) 13 s (.sum a v x)
  | sum {a v x : Word} {s : Cpu} (h4 : s.reg 4 = a) (h5 : s.reg 5 = v) (h8 : s.reg 8 = x + v) :
      At (.atomicAdd a v) 14 s (.sum a v x)
  | storeSum {a v x : Word} {s : Cpu} (h4 : s.reg 4 = a) (h5 : s.reg 5 = v)
      (h8 : s.reg 8 = x + v) (h2 : s.reg 2 = x + v) : At (.atomicAdd a v) 15 s (.sum a v x)
  | missedSum {a v : Word} {s : Cpu} (h4 : s.reg 4 = a) (h5 : s.reg 5 = v) (h8 : s.reg 8 = 0) :
      At (.atomicAdd a v) 16 s (.add a v)
  | stored {a v r : Word} {s : Cpu} (h8 : s.reg 8 = 1) (h2 : s.reg 2 = r) :
      At (.atomicAdd a v) 16 s (.added a v r)
  | added {a v r : Word} {s : Cpu} (h2 : s.reg 2 = r) : At (.atomicAdd a v) 17 s (.added a v r)

variable {C : Type} [DecidableEq C]

/-- What an instruction at a place does, as a move. -/
theorem atomicS_exec {c : C} {call : Call} {n : Nat} {i : Instr} {s s' : Cpu} {b b' : Mem C}
    {out : Next} {st st' : Stage Word Word} {l : Option (Addition Word Word)}
    (hi : atomicText[n]? = some i) (hexec : exec c i s b = (s', b', out))
    (hmove : Move c b st b' st' l) (hland : (atomicS C).Lands At call n s' st' out) :
    ∃ cpu' b' out st' l, (atomicS C).exec c n s b = some (cpu', b', out) ∧
      Move c b st b' st' l ∧ (atomicS C).Lands At call n cpu' st' out := by
  refine ⟨s', b', out, st', l, ?_, hmove, hland⟩
  simp only [atomicS, hi, Option.map_some, hexec]

/-- Each instruction makes a move of the stage its place stands for. -/
theorem At.exec {c : C} {call : Call} {n : Nat} {s : Cpu} {st : Stage Word Word} {b : Mem C}
    (h : At call n s st) :
    ∃ cpu' b' out st' l, (atomicS C).exec c n s b = some (cpu', b', out) ∧
      Move c b st b' st' l ∧ (atomicS C).Lands At call n cpu' st' out := by
  cases h with
  | delay h4 hpos hle =>
    refine atomicS_exec rfl rfl (.idle ..) (At.delayed ?_ ?_)
    · rwa [Cpu.reg_setReg_of_ne (by decide)]
    · rw [Cpu.reg_setReg_self (by decide), toNat_pred hpos]
      omega
  | delayed h4 hlt =>
    refine atomicS_exec rfl rfl (.idle ..) ?_
    split
    · rename_i hne
      rw [Cpu.reg_zero] at hne
      exact At.delay h4 (toNat_pos hne) hlt.le
    · exact At.link h4
  | link h4 =>
    subst h4
    refine atomicS_exec rfl exec_ll_zero (.link b _) (At.linked ?_ ?_)
    · rw [Cpu.reg_setReg_of_ne (by decide)]
    · exact Cpu.reg_setReg_self (by decide)
  | linked h4 h2 =>
    refine atomicS_exec rfl rfl (.idle ..) (At.test ?_ ?_ ?_)
    · rwa [Cpu.reg_setReg_of_ne (by decide)]
    · rwa [Cpu.reg_setReg_of_ne (by decide)]
    · exact Cpu.reg_setReg_self (by decide)
  | @test a v s h4 h2 h8 =>
    by_cases hv : v = 0
    · subst hv
      refine atomicS_exec rfl rfl (.idle ..) ?_
      rw [if_neg (by rw [h2, Cpu.reg_zero]; simp)]
      exact At.free h4
    · refine atomicS_exec rfl rfl (.busy b _ _ hv) ?_
      rw [if_pos (by rwa [h2, Cpu.reg_zero])]
      exact At.delay h4 (by rw [h8]; decide) (by rw [h8]; decide)
  | free h4 =>
    refine atomicS_exec rfl rfl (.idle ..) (At.grab ?_ ?_)
    · rwa [Cpu.reg_setReg_of_ne (by decide)]
    · exact Cpu.reg_setReg_self (by decide)
  | grab h4 h2 =>
    subst h4
    by_cases hlink : b.link c = some (s.reg 4)
    · refine atomicS_exec rfl (exec_sc_linked hlink h2) (.grab b _ hlink) (At.grabbed ?_)
      exact Cpu.reg_setReg_self (by decide)
    · refine atomicS_exec rfl (exec_sc_not_linked hlink) (.miss b _) (At.missed ?_ ?_)
      · rw [Cpu.reg_setReg_of_ne (by decide)]
      · exact Cpu.reg_setReg_self (by decide)
  | missed h4 h2 =>
    refine atomicS_exec rfl rfl (.idle ..) ?_
    rw [if_pos (by rw [h2, Cpu.reg_zero])]
    exact At.link h4
  | grabbed h2 =>
    refine atomicS_exec rfl rfl (.idle ..) ?_
    rw [if_neg (by rw [h2, Cpu.reg_zero]; decide)]
    exact At.locked
  | locked => exact atomicS_exec rfl rfl (.idle ..) rfl
  | unlock h4 =>
    subst h4
    exact atomicS_exec rfl (exec_sw_zero Cpu.reg_zero) (.free b _) At.sync
  | sync => exact atomicS_exec rfl rfl (.idle ..) At.unlocked
  | unlocked => exact atomicS_exec rfl rfl (.idle ..) rfl
  | linkSum h4 h5 =>
    subst h4
    refine atomicS_exec rfl exec_ll_zero (.linkSum b _ _) (At.linkedSum ?_ ?_ ?_)
    · rw [Cpu.reg_setReg_of_ne (by decide)]
    · rwa [Cpu.reg_setReg_of_ne (by decide)]
    · exact Cpu.reg_setReg_self (by decide)
  | linkedSum h4 h5 h2 =>
    refine atomicS_exec rfl rfl (.idle ..) (At.sum ?_ ?_ ?_)
    · rwa [Cpu.reg_setReg_of_ne (by decide)]
    · rwa [Cpu.reg_setReg_of_ne (by decide)]
    · rw [Cpu.reg_setReg_self (by decide), h5, h2]
  | sum h4 h5 h8 =>
    refine atomicS_exec rfl rfl (.idle ..) (At.storeSum ?_ ?_ ?_ ?_)
    · rwa [Cpu.reg_setReg_of_ne (by decide)]
    · rwa [Cpu.reg_setReg_of_ne (by decide)]
    · rwa [Cpu.reg_setReg_of_ne (by decide)]
    · rwa [Cpu.reg_setReg_self (by decide)]
  | storeSum h4 h5 h8 h2 =>
    subst h4
    by_cases hlink : b.link c = some (s.reg 4)
    · refine atomicS_exec rfl (exec_sc_linked hlink h8) (.sum b _ _ _ hlink) (At.stored ?_ ?_)
      · exact Cpu.reg_setReg_self (by decide)
      · rwa [Cpu.reg_setReg_of_ne (by decide)]
    · refine atomicS_exec rfl (exec_sc_not_linked hlink) (.missSum b _ _ _) (At.missedSum ?_ ?_ ?_)
      · rw [Cpu.reg_setReg_of_ne (by decide)]
      · rwa [Cpu.reg_setReg_of_ne (by decide)]
      · exact Cpu.reg_setReg_self (by decide)
  | missedSum h4 h5 h8 =>
    refine atomicS_exec rfl rfl (.idle ..) ?_
    rw [if_pos (by rw [h8, Cpu.reg_zero])]
    exact At.linkSum h4 h5
  | stored h8 h2 =>
    refine atomicS_exec rfl rfl (.idle ..) ?_
    rw [if_neg (by rw [h8, Cpu.reg_zero]; decide)]
    exact At.added h2
  | added h2 => exact atomicS_exec rfl rfl (.idle ..) (congrArg _ h2.symm)

theorem atomicS_follows : (atomicS C).Follows At where
  spinLock s := .link rfl
  spinUnlock s := .unlock rfl
  atomicAdd s := .linkSum rfl rfl
  pending := by
    intro call n s st h e he
    cases h with
    | stored | added =>
      rw [List.mem_singleton.mp he]
    | _ => exact absurd he (by simp [Stage.pending])
  owned := by
    intro call n s st a h ha
    cases h with
    | grabbed | locked => exact .inl (congrArg _ (Option.some.inj ha))
    | unlock => exact .inr (congrArg _ (Option.some.inj ha))
    | _ => exact absurd ha (by simp [Stage.owned])
  exec := At.exec

/-! ## A processor on its own -/

section
variable {c : C} {n m k : Nat} {i : Instr} {s s' : Cpu} {b b' : Mem C} {a : Word}

theorem ends_leave {addr : Word} (hi : atomicText[n]? = some i)
    (hexec : exec c i s b = (s', b', .leave addr)) : (atomicS C).Ends c 1 n s b :=
  .leave (by simp only [atomicS, hi, Option.map_some, hexec]; rfl)

theorem ends_next (hi : atomicText[n]? = some i) (hexec : exec c i s b = (s', b', .next))
    (hrest : (atomicS C).Ends c k (n + 1) s' b') : (atomicS C).Ends c (k + 1) n s b :=
  .next (by simp only [atomicS, hi, Option.map_some, hexec]) hrest

theorem ends_goto (hi : atomicText[n]? = some i) (hexec : exec c i s b = (s', b', .goto m))
    (hrest : (atomicS C).Ends c k m s' b') : (atomicS C).Ends c (k + 1) n s b :=
  .goto (by simp only [atomicS, hi, Option.map_some, hexec]) hrest

theorem exec_bne_taken {rs rt : Reg} (h : s.reg rs ≠ s.reg rt) :
    exec c (.bne rs rt m) s b = (s, b, .goto m) := by
  simp only [exec, if_pos h]

theorem exec_bne_not_taken {rs rt : Reg} (h : s.reg rs = s.reg rt) :
    exec c (.bne rs rt m) s b = (s, b, .next) := by
  simp only [exec, if_neg (not_not.mpr h)]

theorem exec_beq_taken {rs rt : Reg} (h : s.reg rs = s.reg rt) :
    exec c (.beq rs rt m) s b = (s, b, .goto m) := by
  simp only [exec, if_pos h]

theorem exec_beq_not_taken {rs rt : Reg} (h : s.reg rs ≠ s.reg rt) :
    exec c (.beq rs rt m) s b = (s, b, .next) := by
  simp only [exec, if_neg h]

theorem ends_grabbed (h2 : s.reg 2 = 1) : (atomicS C).Ends c 2 7 s b :=
  ends_next rfl (exec_beq_not_taken (by rw [h2, Cpu.reg_zero]; decide)) (ends_leave rfl rfl)

/-- With the link unbroken the store goes through. -/
theorem ends_free (h4 : s.reg 4 = a) (hlink : b.link c = some a) :
    (atomicS C).Ends c 4 5 s b := by
  subst h4
  have h4 : (s.setReg 2 1).reg 4 = s.reg 4 := Cpu.reg_setReg_of_ne (by decide)
  refine ends_next rfl rfl (ends_next rfl (exec_sc_linked (by rwa [h4]) rfl) ?_)
  exact ends_grabbed (Cpu.reg_setReg_self (by decide))

/-- From the load linked on, when the lock is free. -/
theorem ends_link (h4 : s.reg 4 = a) (hmem : b.mem a = 0) : (atomicS C).Ends c 7 2 s b := by
  subst h4
  refine ends_next rfl exec_ll_zero (ends_next rfl rfl ?_)
  refine ends_next rfl (exec_bne_not_taken ?_) (ends_free (a := s.reg 4) ?_ ?_)
  · rw [Cpu.reg_setReg_of_ne (by decide), Cpu.reg_setReg_self (by decide), Cpu.reg_zero, hmem]
  · rw [Cpu.reg_setReg_of_ne (by decide), Cpu.reg_setReg_of_ne (by decide)]
  · exact Bus.loadLinked_link_self

/-- In the delay loop, by induction on what is left of the delay. -/
theorem ends_delayed (h4 : s.reg 4 = a) (hmem : b.mem a = 0) (hk : (s.reg 8).toNat = k) :
    (atomicS C).Ends c (2 * k + 8) 1 s b := by
  induction k generalizing s with
  | zero =>
    have h8 : s.reg 8 = s.reg 0 := by
      rw [Cpu.reg_zero]
      exact BitVec.eq_of_toNat_eq hk
    exact ends_next rfl (exec_bne_not_taken h8) (ends_link h4 hmem)
  | succ k ih =>
    have h8 : s.reg 8 ≠ s.reg 0 := by
      rw [Cpu.reg_zero]
      intro h0
      rw [h0] at hk
      exact absurd hk (by simp)
    refine ends_goto rfl (exec_bne_taken h8) (ends_next rfl rfl (ih ?_ ?_))
    · rwa [Cpu.reg_setReg_of_ne (by decide)]
    · rw [Cpu.reg_setReg_self (by decide), toNat_pred (by omega)]
      omega

theorem ends_delay (h4 : s.reg 4 = a) (hmem : b.mem a = 0) (hpos : 0 < (s.reg 8).toNat)
    (hle : (s.reg 8).toNat ≤ 50) : (atomicS C).Ends c 107 0 s b := by
  have hk : ((s.setReg 8 (s.reg 8 + -1)).reg 8).toNat = (s.reg 8).toNat - 1 := by
    rw [Cpu.reg_setReg_self (by decide), toNat_pred hpos]
  have h4' : (s.setReg 8 (s.reg 8 + -1)).reg 4 = a := by
    rw [Cpu.reg_setReg_of_ne (by decide)]
    exact h4
  exact Text.Ends.mono (ends_next rfl rfl (ends_delayed h4' hmem hk)) (by omega)

/-- Where the store has failed, the lock is free for the next trial. -/
theorem ends_grab (h4 : s.reg 4 = a) (hmem : b.mem a = 0) (h2 : s.reg 2 = 1) :
    (atomicS C).Ends c 9 6 s b := by
  subst h4
  by_cases hlink : b.link c = some (s.reg 4)
  · exact Text.Ends.mono (ends_next rfl (exec_sc_linked hlink h2)
      (ends_grabbed (Cpu.reg_setReg_self (by decide)))) (by omega)
  · refine ends_next rfl (exec_sc_not_linked hlink) (ends_goto rfl (exec_beq_taken ?_)
      (ends_link (Cpu.reg_setReg_of_ne (by decide)) hmem))
    rw [Cpu.reg_setReg_self (by decide), Cpu.reg_zero]

theorem ends_test (h4 : s.reg 4 = a) (hmem : b.mem a = 0) (h8 : s.reg 8 = 50) :
    (atomicS C).Ends c 108 4 s b := by
  by_cases h2 : s.reg 2 = s.reg 0
  · refine Text.Ends.mono (ends_next rfl (exec_bne_not_taken h2) (ends_next rfl rfl
      (ends_grab (a := a) ?_ hmem (Cpu.reg_setReg_self (by decide))))) (by omega)
    rwa [Cpu.reg_setReg_of_ne (by decide)]
  · exact ends_goto rfl (exec_bne_taken h2)
      (ends_delay h4 hmem (by rw [h8]; decide) (by rw [h8]; decide))

/-- Wherever `spin_lock` is, a free lock is got within 109 instructions. -/
theorem At.ends {st : Stage Word Word} (h : At (.spinLock a) n s st) (hmem : b.mem a = 0) :
    (atomicS C).Ends c 109 n s b := by
  cases h with
  | delay h4 hpos hle => exact (ends_delay h4 hmem hpos hle).mono (by omega)
  | delayed h4 hlt => exact (ends_delayed h4 hmem rfl).mono (by omega)
  | link h4 => exact (ends_link h4 hmem).mono (by omega)
  | linked h4 h2 =>
    refine ends_next rfl rfl (ends_test ?_ hmem (Cpu.reg_setReg_self (by decide)))
    rwa [Cpu.reg_setReg_of_ne (by decide)]
  | test h4 h2 h8 => exact (ends_test h4 hmem h8).mono (by omega)
  | free h4 =>
    refine Text.Ends.mono (ends_next rfl rfl
      (ends_grab (a := a) ?_ hmem (Cpu.reg_setReg_self (by decide)))) (by omega)
    rwa [Cpu.reg_setReg_of_ne (by decide)]
  | grab h4 h2 => exact (ends_grab h4 hmem h2).mono (by omega)
  | missed h4 h2 =>
    refine Text.Ends.mono (ends_goto rfl (exec_beq_taken ?_) (ends_link h4 hmem)) (by omega)
    rw [h2, Cpu.reg_zero]
  | grabbed h2 => exact (ends_grabbed h2).mono (by omega)
  | locked => exact Text.Ends.mono (ends_leave rfl rfl) (by omega)

end

end Ko6.Hal.Mips
