import Ko6.Hal.MipsIsa

set_option autoImplicit false

/-!
# Hal: the context of a thread on the MIPS

`threada.S` and `threadc.c`: the table `context` of a thread takes the registers that a
function call keeps, with the status register, the return address of the exception and that
of `thread_context_save` itself.
-/

namespace Ko6.Hal.Mips

open Lib

/-- The indexes of the table; the field `tid` is just before it. -/
def TH_TID : Word := -1
def TH_CONTEXT_S0 : Word := 0
def TH_CONTEXT_S1 : Word := 1
def TH_CONTEXT_S2 : Word := 2
def TH_CONTEXT_S3 : Word := 3
def TH_CONTEXT_S4 : Word := 4
def TH_CONTEXT_S5 : Word := 5
def TH_CONTEXT_S6 : Word := 6
def TH_CONTEXT_S7 : Word := 7
def TH_CONTEXT_S8 : Word := 8
def TH_CONTEXT_SR : Word := 9
def TH_CONTEXT_EPC : Word := 10
def TH_CONTEXT_RA : Word := 11
def TH_CONTEXT_SP : Word := 12

def thread_context_save : List Instr :=
  [ .mfc0 26 12,
    .mfc0 27 14,
    .sw 16 (TH_CONTEXT_S0 * 4) 4,
    .sw 17 (TH_CONTEXT_S1 * 4) 4,
    .sw 18 (TH_CONTEXT_S2 * 4) 4,
    .sw 19 (TH_CONTEXT_S3 * 4) 4,
    .sw 20 (TH_CONTEXT_S4 * 4) 4,
    .sw 21 (TH_CONTEXT_S5 * 4) 4,
    .sw 22 (TH_CONTEXT_S6 * 4) 4,
    .sw 23 (TH_CONTEXT_S7 * 4) 4,
    .sw 30 (TH_CONTEXT_S8 * 4) 4,
    .sw 26 (TH_CONTEXT_SR * 4) 4,
    .sw 27 (TH_CONTEXT_EPC * 4) 4,
    .sw 31 (TH_CONTEXT_RA * 4) 4,
    .sw 29 (TH_CONTEXT_SP * 4) 4,
    .li 2 1,
    .jr 31 ]

def thread_context_load : List Instr :=
  [ .lw 2 (TH_TID * 4) 4,
    .lw 16 (TH_CONTEXT_S0 * 4) 4,
    .lw 17 (TH_CONTEXT_S1 * 4) 4,
    .lw 18 (TH_CONTEXT_S2 * 4) 4,
    .lw 19 (TH_CONTEXT_S3 * 4) 4,
    .lw 20 (TH_CONTEXT_S4 * 4) 4,
    .lw 21 (TH_CONTEXT_S5 * 4) 4,
    .lw 22 (TH_CONTEXT_S6 * 4) 4,
    .lw 23 (TH_CONTEXT_S7 * 4) 4,
    .lw 30 (TH_CONTEXT_S8 * 4) 4,
    .lw 26 (TH_CONTEXT_SR * 4) 4,
    .lw 27 (TH_CONTEXT_EPC * 4) 4,
    .lw 31 (TH_CONTEXT_RA * 4) 4,
    .lw 29 (TH_CONTEXT_SP * 4) 4,
    .mtc0 26 12,
    .mtc0 27 14,
    .li 2 0,
    .jr 31 ]

/-- `thread_context_init`; the rest of the table stays as it is. -/
def thread_context_init (m : Word → Word) (context bootstrap stack_pointer : Word) :
    Word → Word :=
  let m := Function.update m (context + TH_CONTEXT_SR * 4) 0x413
  let m := Function.update m (context + TH_CONTEXT_RA * 4) bootstrap
  Function.update m (context + TH_CONTEXT_SP * 4) stack_pointer

/-! ## The table as a list -/

/-- The registers and their offsets, in the order of the code. -/
def entries : List (Reg × Word) :=
  [(16, TH_CONTEXT_S0 * 4), (17, TH_CONTEXT_S1 * 4), (18, TH_CONTEXT_S2 * 4),
    (19, TH_CONTEXT_S3 * 4), (20, TH_CONTEXT_S4 * 4), (21, TH_CONTEXT_S5 * 4),
    (22, TH_CONTEXT_S6 * 4), (23, TH_CONTEXT_S7 * 4), (30, TH_CONTEXT_S8 * 4),
    (26, TH_CONTEXT_SR * 4), (27, TH_CONTEXT_EPC * 4), (31, TH_CONTEXT_RA * 4),
    (29, TH_CONTEXT_SP * 4)]

/-- The general registers of the table: `$26` and `$27` carry the status and the return
address. -/
def persistent : List (Reg × Word) := entries.filter fun p => p.1 ≠ 26 ∧ p.1 ≠ 27

/-- What a thread finds again in the processor: its persistent registers, its status and the
return address of its exception. -/
structure SameThread (s s' : Cpu) : Prop where
  reg : ∀ p ∈ persistent, s'.reg p.1 = s.reg p.1
  status : s'.cp0 12 = s.cp0 12
  epc : s'.cp0 14 = s.cp0 14

/-- The table at `context` holds what a thread has in the processor. -/
structure InContext (m : Word → Word) (context : Word) (s : Cpu) : Prop where
  reg : ∀ p ∈ persistent, m (context + p.2) = s.reg p.1
  status : m (context + TH_CONTEXT_SR * 4) = s.cp0 12
  epc : m (context + TH_CONTEXT_EPC * 4) = s.cp0 14

/-- The words of the table. -/
def Area (context a : Word) : Prop := ∃ p ∈ entries, a = context + p.2

theorem mem_persistent {p : Reg × Word} :
    p ∈ persistent ↔ p ∈ entries ∧ p.1 ≠ 26 ∧ p.1 ≠ 27 := by
  rw [persistent, List.mem_filter, decide_eq_true_iff]

theorem InContext.congr {m m' : Word → Word} {context : Word} {s : Cpu}
    (h : InContext m context s) (hm : ∀ a, Area context a → m' a = m a) :
    InContext m' context s where
  reg p hp := (hm _ ⟨p, (mem_persistent.mp hp).1, rfl⟩).trans (h.reg p hp)
  status := (hm _ ⟨(26, _), by decide, rfl⟩).trans h.status
  epc := (hm _ ⟨(27, _), by decide, rfl⟩).trans h.epc

theorem entries_ne : ∀ p ∈ entries, p.1 ≠ 2 ∧ p.1 ≠ 4 := Asm.forall_mem_of_all (by decide)

section
variable {C : Type} [DecidableEq C] {c : C} {callee : Word → Cpu × Mem C → Cpu × Mem C → Prop}
  {s s0 : Cpu} {b : Mem C}

theorem entries_plain {i : Instr}
    (h : i ∈ entries.map (fun p => Instr.sw p.1 p.2 4) ++
      ((2, TH_TID * 4) :: entries).map (fun p => Instr.lw p.1 p.2 4)) :
    Asm.Plain (step c) i := by
  refine plain_of_isPlain ?_
  revert i
  decide

/-- `thread_context_save` returns 1 to its caller, with the thread in its table. -/
theorem save_leads : Asm.Leads (step c) callee thread_context_save
    (fun addr p => addr = s.reg 31 ∧ p.1.reg 2 = 1 ∧ SameThread s p.1 ∧
      InContext p.2.mem (s.reg 4) s ∧ ∀ a, ¬ Area (s.reg 4) a → p.2.mem a = b.mem a)
    0 (s, b) := by
  have hreg : ∀ r : Reg, r ≠ 26 → r ≠ 27 →
      ((s.setReg 26 (s.cp0 12)).setReg 27 (s.cp0 14)).reg r = s.reg r := by
    intro r h26 h27
    rw [Cpu.reg_setReg_of_ne h27, Cpu.reg_setReg_of_ne h26]
  obtain ⟨b', hb', hsaved, hother⟩ := block_sw (c := c) (b := b) 4 entries
    (s := (s.setReg 26 (s.cp0 12)).setReg 27 (s.cp0 14)) (by decide)
  rw [hreg 4 (by decide) (by decide)] at hsaved hother
  refine .next rfl rfl (.next rfl rfl ?_)
  change Asm.Leads (step c) callee thread_context_save _ 2
    ((s.setReg 26 (s.cp0 12)).setReg 27 (s.cp0 14), b)
  refine .block (entries.map fun p => .sw p.1 p.2 4)
    (fun i hi => entries_plain (List.mem_append_left _ hi)) ⟨[.li 2 1, .jr 31], rfl⟩ ?_
  rw [hb']
  refine .next rfl rfl (.leave rfl rfl ⟨?_, ?_, ⟨?_, rfl, rfl⟩, ⟨?_, ?_, ?_⟩, ?_⟩)
  · exact (Cpu.reg_setReg_of_ne (by decide)).trans (hreg 31 (by decide) (by decide))
  · exact Cpu.reg_setReg_self (by decide)
  · intro p hp
    obtain ⟨hmem, h26, h27⟩ := mem_persistent.mp hp
    exact (Cpu.reg_setReg_of_ne (entries_ne p hmem).1).trans (hreg p.1 h26 h27)
  · intro p hp
    obtain ⟨hmem, h26, h27⟩ := mem_persistent.mp hp
    exact (hsaved p hmem).trans (hreg p.1 h26 h27)
  · refine (hsaved (26, TH_CONTEXT_SR * 4) (by decide)).trans ?_
    rw [Cpu.reg_setReg_of_ne (by decide), Cpu.reg_setReg_self (by decide)]
  · exact (hsaved (27, TH_CONTEXT_EPC * 4) (by decide)).trans (Cpu.reg_setReg_self (by decide))
  · intro a ha
    exact hother a fun p hp hap => ha ⟨p, hp, hap⟩

/-- `thread_context_load` returns 0 in the thread that the table holds. -/
theorem load_leads (h : InContext b.mem (s.reg 4) s0) :
    Asm.Leads (step c) callee thread_context_load
      (fun addr p => addr = s0.reg 31 ∧ p.1.reg 2 = 0 ∧ SameThread s0 p.1 ∧ p.2.mem = b.mem)
      0 (s, b) := by
  obtain ⟨s1, hs1, hloaded, -, -⟩ := block_lw (c := c) (b := b) (s := s) 4
    ((2, TH_TID * 4) :: entries) (by decide) (Asm.forall_mem_of_all (by decide))
  have hentry : ∀ p ∈ entries, s1.reg p.1 = b.mem (s.reg 4 + p.2) := fun p hp =>
    hloaded p (List.mem_cons_of_mem _ hp)
  have hpers : ∀ p ∈ persistent, s1.reg p.1 = s0.reg p.1 := fun p hp =>
    (hentry p (mem_persistent.mp hp).1).trans (h.reg p hp)
  refine .block (((2, TH_TID * 4) :: entries).map fun p => .lw p.1 p.2 4)
    (fun i hi => entries_plain (List.mem_append_right _ hi))
    ⟨[.mtc0 26 12, .mtc0 27 14, .li 2 0, .jr 31], rfl⟩ ?_
  rw [hs1]
  refine .next rfl rfl (.next rfl rfl (.next rfl rfl (.leave rfl rfl ⟨?_, ?_, ⟨?_, ?_, ?_⟩, rfl⟩)))
  · exact (Cpu.reg_setReg_of_ne (by decide)).trans (hpers (31, TH_CONTEXT_RA * 4) (by decide))
  · exact Cpu.reg_setReg_self (by decide)
  · intro p hp
    exact (Cpu.reg_setReg_of_ne (entries_ne p (mem_persistent.mp hp).1).1).trans (hpers p hp)
  · exact (hentry (26, TH_CONTEXT_SR * 4) (by decide)).trans h.status
  · exact (hentry (27, TH_CONTEXT_EPC * 4) (by decide)).trans h.epc

/-- Neither routine calls a function, and both return. -/
theorem no_calls {i : Instr} (h : i ∈ thread_context_save ++ thread_context_load) :
    i.isCall = false := by
  revert i
  decide

theorem exists_save_exits (p : Cpu × Mem C) :
    ∃ addr p', Asm.Exits (step c) callee thread_context_save 0 p addr p' := by
  obtain ⟨addr, p', h, -⟩ := (save_leads (c := c) (s := p.1) (b := p.2)).exists_exits
    fun i hi q q' fn hfn =>
      absurd (congrArg Prod.snd hfn) (step_ne_call (no_calls (List.mem_append_left _ hi)))
  exact ⟨addr, p', h⟩

theorem exists_load_exits {p : Cpu × Mem C} (h : InContext p.2.mem (p.1.reg 4) s0) :
    ∃ addr p', Asm.Exits (step c) callee thread_context_load 0 p addr p' := by
  obtain ⟨addr, p', he, -⟩ := (load_leads (c := c) h).exists_exits
    fun i hi q q' fn hfn =>
      absurd (congrArg Prod.snd hfn) (step_ne_call (no_calls (List.mem_append_right _ hi)))
  exact ⟨addr, p', he⟩

end

/-! ## The first context of a thread -/

/-- The offset of a register in the table. -/
def offset (r : Reg) : Word := ((entries.find? fun p => p.1 = r).map Prod.snd).getD 0

theorem offset_of_mem : ∀ p ∈ entries, p.1 ≠ 0 ∧ offset p.1 = p.2 :=
  Asm.forall_mem_of_all (by decide)

/-- What the processor has when it is loaded from a table. -/
def ofContext (m : Word → Word) (context : Word) : Cpu where
  gpr r := m (context + offset r)
  hi := 0
  lo := 0
  cp0 r := m (context + if r = 12 then TH_CONTEXT_SR * 4 else TH_CONTEXT_EPC * 4)

theorem ofContext_reg (m : Word → Word) (context : Word) {p : Reg × Word} (hp : p ∈ entries) :
    (ofContext m context).reg p.1 = m (context + p.2) := by
  obtain ⟨hne, hoff⟩ := offset_of_mem p hp
  rw [Cpu.reg, if_neg hne, ← hoff]
  rfl

theorem inContext_ofContext (m : Word → Word) (context : Word) :
    InContext m context (ofContext m context) where
  reg _ hp := (ofContext_reg m context (mem_persistent.mp hp).1).symm
  status := rfl
  epc := rfl

/-- The thread begins in `bootstrap`, on its stack, in user mode with interrupts on once the
exception level is left. -/
theorem ofContext_init (m : Word → Word) (context bootstrap stack_pointer : Word) :
    let s := ofContext (thread_context_init m context bootstrap stack_pointer) context
    s.reg 31 = bootstrap ∧ s.reg 29 = stack_pointer ∧ s.cp0 12 = 0x413 := by
  have hne : ∀ {x y : Word}, x ≠ y → context + x ≠ context + y := fun h heq =>
    h (add_left_cancel heq)
  refine ⟨?_, ?_, ?_⟩
  · refine (ofContext_reg _ _ (p := (31, TH_CONTEXT_RA * 4)) (by decide)).trans ?_
    rw [thread_context_init, Function.update_of_ne (hne (by decide)), Function.update_self]
  · refine (ofContext_reg _ _ (p := (29, TH_CONTEXT_SP * 4)) (by decide)).trans ?_
    rw [thread_context_init, Function.update_self]
  · simp only [ofContext, if_true, thread_context_init]
    rw [Function.update_of_ne (hne (by decide)), Function.update_of_ne (hne (by decide)),
      Function.update_self]

theorem init_frame {m : Word → Word} {context bootstrap stack_pointer a : Word}
    (ha : ¬ Area context a) :
    thread_context_init m context bootstrap stack_pointer a = m a := by
  have hne : ∀ {p : Reg × Word}, p ∈ entries → a ≠ context + p.2 := fun hp hap => ha ⟨_, hp, hap⟩
  rw [thread_context_init, Function.update_of_ne (hne (p := (29, _)) (by decide)),
    Function.update_of_ne (hne (p := (31, _)) (by decide)),
    Function.update_of_ne (hne (p := (26, _)) (by decide))]

end Ko6.Hal.Mips
