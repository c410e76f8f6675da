import Ko6.Hal.Atomic
import Ko6.Hal.RiscvIsa

set_option autoImplicit false

/-!
# Hal: `atomic.S` of the RISC-V
-/

namespace Ko6.Hal.Riscv

open Lib Lib.LinkedSync Atomic

/-- The places of the labels. -/
def spin_lock_delay : Nat := 0
def spin_lock : Nat := 2
def spin_unlock : Nat := 9
def atomic_inc : Nat := 12

def atomicText : List Instr :=
  [ -- spin_lock_delay:
    .addi t0 t0 (-1),
    .bnez t0 spin_lock_delay,
    -- spin_lock:
    .lr_w t1 0 a0,
    .li t0 50,
    .bnez t1 spin_lock_delay,
    -- spin_lock_sc:
    .li t0 1,
    .sc_w t0 t0 0 a0,
    .bnez t0 spin_lock,
    .ret,
    -- spin_unlock:
    .sw 0 0 a0,
    .fence,
    .ret,
    -- atomic_inc:
    .amoadd_w t0 a1 0 a0,
    .add a0 t0 a1,
    .ret ]

/-- The file, for the calls of `atomic.h`: the arguments are in `a0` and `a1`, the result in
`a0`.  The code of `atomic_add` is at the label `atomic_inc`. -/
def atomicS (C : Type) [DecidableEq C] : Text C where
  Cpu := Cpu
  exec c n s b := (atomicText[n]?).map fun i => exec c i s b
  spinLock := spin_lock
  spinUnlock := spin_unlock
  atomicAdd := atomic_inc
  arg0 s := s.reg a0
  arg1 s := s.reg a1
  result s := s.reg a0

/-- The stages of the places.  `a0` keeps the address until the call has done its work. -/
inductive At : Call → Nat → Cpu → Stage Word Word → Prop where
  | delay {a : Word} {s : Cpu} (ha : s.reg a0 = a) (hpos : 0 < (s.reg t0).toNat)
      (hle : (s.reg t0).toNat ≤ 50) : At (.spinLock a) 0 s (.lock a)
  | delayed {a : Word} {s : Cpu} (ha : s.reg a0 = a) (hlt : (s.reg t0).toNat < 50) :
      At (.spinLock a) 1 s (.lock a)
  | link {a : Word} {s : Cpu} (ha : s.reg a0 = a) : At (.spinLock a) 2 s (.lock a)
  | linked {a v : Word} {s : Cpu} (ha : s.reg a0 = a) (hv : s.reg t1 = v) :
      At (.spinLock a) 3 s (.seen a v)
  | test {a v : Word} {s : Cpu} (ha : s.reg a0 = a) (hv : s.reg t1 = v) (h50 : s.reg t0 = 50) :
      At (.spinLock a) 4 s (.seen a v)
  | free {a : Word} {s : Cpu} (ha : s.reg a0 = a) : At (.spinLock a) 5 s (.seen a 0)
  | grab {a : Word} {s : Cpu} (ha : s.reg a0 = a) (h1 : s.reg t0 = 1) :
      At (.spinLock a) 6 s (.seen a 0)
  | missed {a : Word} {s : Cpu} (ha : s.reg a0 = a) (h1 : s.reg t0 = 1) :
      At (.spinLock a) 7 s (.lock a)
  | grabbed {a : Word} {s : Cpu} (h0 : s.reg t0 = 0) : At (.spinLock a) 7 s (.locked a)
  | locked {a : Word} {s : Cpu} : At (.spinLock a) 8 s (.locked a)
  | unlock {a : Word} {s : Cpu} (ha : s.reg a0 = a) : At (.spinUnlock a) 9 s (.unlock a)
  | fence {a : Word} {s : Cpu} : At (.spinUnlock a) 10 s (.unlocked a)
  | unlocked {a : Word} {s : Cpu} : At (.spinUnlock a) 11 s (.unlocked a)
  | amoadd {a v : Word} {s : Cpu} (ha : s.reg a0 = a) (hv : s.reg a1 = v) :
      At (.atomicAdd a v) 12 s (.add a v)
  | again {a v r : Word} {s : Cpu} (hr : s.reg t0 + s.reg a1 = r) :
      At (.atomicAdd a v) 13 s (.added a v r)
  | added {a v r : Word} {s : Cpu} (hr : s.reg a0 = r) : At (.atomicAdd a v) 14 s (.added a v r)

variable {C : Type} [DecidableEq C]

/-- What an instruction at a place does, as a move. -/
theorem atomicS_exec {c : C} {call : Call} {n : Nat} {i : Instr} {s s' : Cpu} {b b' : Mem C}
    {out : Next} {st st' : Stage Word Word} {l : Option (Addition Word Word)}
    (hi : atomicText[n]? = some i) (hexec : exec c i s b = (s', b', out))
    (hmove : Move c b st b' st' l) (hland : (atomicS C).Lands At call n s' st' out) :
    ∃ cpu' b' out st' l, (atomicS C).exec c n s b = some (cpu', b', out) ∧
      Move c b st b' st' l ∧ (atomicS C).Lands At call n cpu' st' out := by
  refine ⟨s', b', out, st', l, ?_, hmove, hland⟩
  simp only [atomicS, hi, Option.map_some, hexec]

/-- Each instruction makes a move of the stage its place stands for. -/
theorem At.exec {c : C} {call : Call} {n : Nat} {s : Cpu} {st : Stage Word Word} {b : Mem C}
    (h : At call n s st) :
    ∃ cpu' b' out st' l, (atomicS C).exec c n s b = some (cpu', b', out) ∧
      Move c b st b' st' l ∧ (atomicS C).Lands At call n cpu' st' out := by
  cases h with
  | delay ha hpos hle =>
    refine atomicS_exec rfl rfl (.idle ..) (At.delayed ?_ ?_)
    · rwa [Cpu.reg_setReg_of_ne (by decide)]
    · rw [Cpu.reg_setReg_self (by decide), toNat_pred hpos]
      omega
  | delayed ha hlt =>
    refine atomicS_exec rfl rfl (.idle ..) ?_
    split
    · exact At.delay ha (toNat_pos ‹_›) hlt.le
    · exact At.link ha
  | link ha =>
    subst ha
    refine atomicS_exec rfl exec_lr_w_zero (.link b _) (At.linked ?_ ?_)
    · rw [Cpu.reg_setReg_of_ne (by decide)]
    · exact Cpu.reg_setReg_self (by decide)
  | linked ha hv =>
    refine atomicS_exec rfl rfl (.idle ..) (At.test ?_ ?_ ?_)
    · rwa [Cpu.reg_setReg_of_ne (by decide)]
    · rwa [Cpu.reg_setReg_of_ne (by decide)]
    · exact Cpu.reg_setReg_self (by decide)
  | @test a v s ha hv h50 =>
    by_cases h0 : v = 0
    · subst h0
      refine atomicS_exec rfl rfl (.idle ..) ?_
      rw [if_neg (by rw [hv]; simp)]
      exact At.free ha
    · refine atomicS_exec rfl rfl (.busy b _ _ h0) ?_
      rw [if_pos (by rwa [hv])]
      exact At.delay ha (by rw [h50]; decide) (by rw [h50]; decide)
  | free ha =>
    refine atomicS_exec rfl rfl (.idle ..) (At.grab ?_ ?_)
    · rwa [Cpu.reg_setReg_of_ne (by decide)]
    · exact Cpu.reg_setReg_self (by decide)
  | grab ha h1 =>
    subst ha
    by_cases hlink : b.link c = some (s.reg a0)
    · refine atomicS_exec rfl (exec_sc_w_linked hlink h1) (.grab b _ hlink) (At.grabbed ?_)
      exact Cpu.reg_setReg_self (by decide)
    · refine atomicS_exec rfl (exec_sc_w_not_linked hlink) (.miss b _) (At.missed ?_ ?_)
      · rw [Cpu.reg_setReg_of_ne (by decide)]
      · exact Cpu.reg_setReg_self (by decide)
  | missed ha h1 =>
    refine atomicS_exec rfl rfl (.idle ..) ?_
    rw [if_pos (by rw [h1]; decide)]
    exact At.link ha
  | grabbed h0 =>
    refine atomicS_exec rfl rfl (.idle ..) ?_
    rw [if_neg (by rw [h0]; simp)]
    exact At.locked
  | locked => exact atomicS_exec rfl rfl (.idle ..) rfl
  | unlock ha =>
    subst ha
    exact atomicS_exec rfl (exec_sw_zero Cpu.reg_zero) (.free b _) At.fence
  | fence => exact atomicS_exec rfl rfl (.idle ..) At.unlocked
  | unlocked => exact atomicS_exec rfl rfl (.idle ..) rfl
  | amoadd ha hv =>
    subst ha hv
    refine atomicS_exec rfl exec_amoadd_w_zero (.fetchAdd b _ _) (At.again ?_)
    rw [Cpu.reg_setReg_self (by decide), Cpu.reg_setReg_of_ne (by decide)]
  | again hr =>
    refine atomicS_exec rfl rfl (.idle ..) (At.added ?_)
    rwa [Cpu.reg_setReg_self (by decide)]
  | added hr => exact atomicS_exec rfl rfl (.idle ..) (congrArg _ hr.symm)

theorem atomicS_follows : (atomicS C).Follows At where
  spinLock s := .link rfl
  spinUnlock s := .unlock rfl
  atomicAdd s := .amoadd rfl rfl
  pending := by
    intro call n s st h e he
    cases h with
    | again | added => rw [List.mem_singleton.mp he]
    | _ => exact absurd he (by simp [Stage.pending])
  owned := by
    intro call n s st a h ha
    cases h with
    | grabbed | locked => exact .inl (congrArg _ (Option.some.inj ha))
    | unlock => exact .inr (congrArg _ (Option.some.inj ha))
    | _ => exact absurd ha (by simp [Stage.owned])
  exec := At.exec

/-! ## A processor on its own -/

section
variable {c : C} {n m k : Nat} {i : Instr} {s s' : Cpu} {b b' : Mem C} {a : Word}

theorem ends_leave {addr : Word} (hi : atomicText[n]? = some i)
    (hexec : exec c i s b = (s', b', .leave addr)) : (atomicS C).Ends c 1 n s b :=
  .leave (by simp only [atomicS, hi, Option.map_some, hexec]; rfl)

theorem ends_next (hi : atomicText[n]? = some i) (hexec : exec c i s b = (s', b', .next))
    (hrest : (atomicS C).Ends c k (n + 1) s' b') : (atomicS C).Ends c (k + 1) n s b :=
  .next (by simp only [atomicS, hi, Option.map_some, hexec]) hrest

theorem ends_goto (hi : atomicText[n]? = some i) (hexec : exec c i s b = (s', b', .goto m))
    (hrest : (atomicS C).Ends c k m s' b') : (atomicS C).Ends c (k + 1) n s b :=
  .goto (by simp only [atomicS, hi, Option.map_some, hexec]) hrest

theorem exec_bnez_taken {rs : Reg} (h : s.reg rs ≠ 0) :
    exec c (.bnez rs m) s b = (s, b, .goto m) := by
  simp only [exec, if_pos h]

theorem exec_bnez_not_taken {rs : Reg} (h : s.reg rs = 0) :
    exec c (.bnez rs m) s b = (s, b, .next) := by
  simp only [exec, if_neg (not_not.mpr h)]

theorem ends_grabbed (h0 : s.reg t0 = 0) : (atomicS C).Ends c 2 7 s b :=
  ends_next rfl (exec_bnez_not_taken h0) (ends_leave rfl rfl)

/-- With the link unbroken the store goes through. -/
theorem ends_free (ha : s.reg a0 = a) (hlink : b.link c = some a) :
    (atomicS C).Ends c 4 5 s b := by
  subst ha
  have ha : (s.setReg t0 1).reg a0 = s.reg a0 := Cpu.reg_setReg_of_ne (by decide)
  refine ends_next rfl rfl (ends_next rfl (exec_sc_w_linked (by rwa [ha]) rfl) ?_)
  exact ends_grabbed (Cpu.reg_setReg_self (by decide))

/-- From the load linked on, when the lock is free. -/
theorem ends_link (ha : s.reg a0 = a) (hmem : b.mem a = 0) : (atomicS C).Ends c 7 2 s b := by
  subst ha
  refine ends_next rfl exec_lr_w_zero (ends_next rfl rfl ?_)
  refine ends_next rfl (exec_bnez_not_taken ?_) (ends_free (a := s.reg a0) ?_ ?_)
  · rw [Cpu.reg_setReg_of_ne (by decide), Cpu.reg_setReg_self (by decide), hmem]
  · rw [Cpu.reg_setReg_of_ne (by decide), Cpu.reg_setReg_of_ne (by decide)]
  · exact Bus.loadLinked_link_self

/-- In the delay loop, by induction on what is left of the delay. -/
theorem ends_delayed (ha : s.reg a0 = a) (hmem : b.mem a = 0) (hk : (s.reg t0).toNat = k) :
    (atomicS C).Ends c (2 * k + 8) 1 s b := by
  induction k generalizing s with
  | zero =>
    have h0 : s.reg t0 = 0 := BitVec.eq_of_toNat_eq hk
    exact ends_next rfl (exec_bnez_not_taken h0) (ends_link ha hmem)
  | succ k ih =>
    have h0 : s.reg t0 ≠ 0 := by
      intro h0
      rw [h0] at hk
      exact absurd hk (by simp)
    refine ends_goto rfl (exec_bnez_taken h0) (ends_next rfl rfl (ih ?_ ?_))
    · rwa [Cpu.reg_setReg_of_ne (by decide)]
    · rw [Cpu.reg_setReg_self (by decide), toNat_pred (by omega)]
      omega

theorem ends_delay (ha : s.reg a0 = a) (hmem : b.mem a = 0) (hpos : 0 < (s.reg t0).toNat)
    (hle : (s.reg t0).toNat ≤ 50) : (atomicS C).Ends c 107 0 s b := by
  have hk : ((s.setReg t0 (s.reg t0 + -1)).reg t0).toNat = (s.reg t0).toNat - 1 := by
    rw [Cpu.reg_setReg_self (by decide), toNat_pred hpos]
  have ha' : (s.setReg t0 (s.reg t0 + -1)).reg a0 = a := by
    rw [Cpu.reg_setReg_of_ne (by decide)]
    exact ha
  exact Text.Ends.mono (ends_next rfl rfl (ends_delayed ha' hmem hk)) (by omega)

/-- Where the store has failed, the lock is free for the next trial. -/
theorem ends_grab (ha : s.reg a0 = a) (hmem : b.mem a = 0) (h1 : s.reg t0 = 1) :
    (atomicS C).Ends c 9 6 s b := by
  subst ha
  by_cases hlink : b.link c = some (s.reg a0)
  · exact Text.Ends.mono (ends_next rfl (exec_sc_w_linked hlink h1)
      (ends_grabbed (Cpu.reg_setReg_self (by decide)))) (by omega)
  · refine ends_next rfl (exec_sc_w_not_linked hlink) (ends_goto rfl (exec_bnez_taken ?_)
      (ends_link (Cpu.reg_setReg_of_ne (by decide)) hmem))
    rw [Cpu.reg_setReg_self (by decide)]
    decide

theorem ends_test (ha : s.reg a0 = a) (hmem : b.mem a = 0) (h50 : s.reg t0 = 50) :
    (atomicS C).Ends c 108 4 s b := by
  by_cases hv : s.reg t1 = 0
  · refine Text.Ends.mono (ends_next rfl (exec_bnez_not_taken hv) (ends_next rfl rfl
      (ends_grab (a := a) ?_ hmem (Cpu.reg_setReg_self (by decide))))) (by omega)
    rwa [Cpu.reg_setReg_of_ne (by decide)]
  · exact ends_goto rfl (exec_bnez_taken hv)
      (ends_delay ha hmem (by rw [h50]; decide) (by rw [h50]; decide))

/-- Wherever `spin_lock` is, a free lock is got within 109 instructions. -/
theorem At.ends {st : Stage Word Word} (h : At (.spinLock a) n s st) (hmem : b.mem a = 0) :
    (atomicS C).Ends c 109 n s b := by
  cases h with
  | delay ha hpos hle => exact (ends_delay ha hmem hpos hle).mono (by omega)
  | delayed ha hlt => exact (ends_delayed ha hmem rfl).mono (by omega)
  | link ha => exact (ends_link ha hmem).mono (by omega)
  | linked ha hv =>
    refine ends_next rfl rfl (ends_test ?_ hmem (Cpu.reg_setReg_self (by decide)))
    rwa [Cpu.reg_setReg_of_ne (by decide)]
  | test ha hv h50 => exact (ends_test ha hmem h50).mono (by omega)
  | free ha =>
    refine Text.Ends.mono (ends_next rfl rfl
      (ends_grab (a := a) ?_ hmem (Cpu.reg_setReg_self (by decide)))) (by omega)
    rwa [Cpu.reg_setReg_of_ne (by decide)]
  | grab ha h1 => exact (ends_grab ha hmem h1).mono (by omega)
  | missed ha h1 =>
    refine Text.Ends.mono (ends_goto rfl (exec_bnez_taken ?_) (ends_link ha hmem)) (by omega)
    rw [h1]
    decide
  | grabbed h0 => exact (ends_grabbed h0).mono (by omega)
  | locked => exact Text.Ends.mono (ends_leave rfl rfl) (by omega)

end

end Ko6.Hal.Riscv
