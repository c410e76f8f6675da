import Ko6.Hal.RiscvIsa

set_option autoImplicit false

/-!
# Hal: the context of a thread on the RISC-V

`threada.S` and `threadc.c`.
-/

namespace Ko6.Hal.Riscv

open Lib

/-- The indexes of the table. -/
def TH_CONTEXT_S0 : Word := 0
def TH_CONTEXT_S1 : Word := 1
def TH_CONTEXT_S2 : Word := 2
def TH_CONTEXT_S3 : Word := 3
def TH_CONTEXT_S4 : Word := 4
def TH_CONTEXT_S5 : Word := 5
def TH_CONTEXT_S6 : Word := 6
def TH_CONTEXT_S7 : Word := 7
def TH_CONTEXT_S8 : Word := 8
def TH_CONTEXT_S9 : Word := 9
def TH_CONTEXT_S10 : Word := 10
def TH_CONTEXT_S11 : Word := 11
def TH_CONTEXT_MSTATUS : Word := 12
def TH_CONTEXT_MEPC : Word := 13
def TH_CONTEXT_RA : Word := 14
def TH_CONTEXT_SP : Word := 15

def thread_context_save : List Instr :=
  [ .sw s0 (TH_CONTEXT_S0 * 4) a0,
    .sw s1 (TH_CONTEXT_S1 * 4) a0,
    .sw s2 (TH_CONTEXT_S2 * 4) a0,
    .sw s3 (TH_CONTEXT_S3 * 4) a0,
    .sw s4 (TH_CONTEXT_S4 * 4) a0,
    .sw s5 (TH_CONTEXT_S5 * 4) a0,
    .sw s6 (TH_CONTEXT_S6 * 4) a0,
    .sw s7 (TH_CONTEXT_S7 * 4) a0,
    .sw s8 (TH_CONTEXT_S8 * 4) a0,
    .sw s9 (TH_CONTEXT_S9 * 4) a0,
    .sw s10 (TH_CONTEXT_S10 * 4) a0,
    .sw s11 (TH_CONTEXT_S11 * 4) a0,
    .sw ra (TH_CONTEXT_RA * 4) a0,
    .sw sp (TH_CONTEXT_SP * 4) a0,
    .csrr t0 .mstatus,
    .csrr t1 .mepc,
    .sw t0 (TH_CONTEXT_MSTATUS * 4) a0,
    .sw t1 (TH_CONTEXT_MEPC * 4) a0,
    .li a0 1,
    .ret ]

def thread_context_load : List Instr :=
  [ .lw s0 (TH_CONTEXT_S0 * 4) a0,
    .lw s1 (TH_CONTEXT_S1 * 4) a0,
    .lw s2 (TH_CONTEXT_S2 * 4) a0,
    .lw s3 (TH_CONTEXT_S3 * 4) a0,
    .lw s4 (TH_CONTEXT_S4 * 4) a0,
    .lw s5 (TH_CONTEXT_S5 * 4) a0,
    .lw s6 (TH_CONTEXT_S6 * 4) a0,
    .lw s7 (TH_CONTEXT_S7 * 4) a0,
    .lw s8 (TH_CONTEXT_S8 * 4) a0,
    .lw s9 (TH_CONTEXT_S9 * 4) a0,
    .lw s10 (TH_CONTEXT_S10 * 4) a0,
    .lw s11 (TH_CONTEXT_S11 * 4) a0,
    .lw ra (TH_CONTEXT_RA * 4) a0,
    .lw sp (TH_CONTEXT_SP * 4) a0,
    .lw t0 (TH_CONTEXT_MSTATUS * 4) a0,
    .lw t1 (TH_CONTEXT_MEPC * 4) a0,
    .csrw .mstatus t0,
    .csrw .mepc t1,
    .li a0 0,
    .ret ]

/-- `thread_context_init`; the rest of the table stays as it is. -/
def thread_context_init (m : Word → Word) (context bootstrap stack_pointer : Word) :
    Word → Word :=
  let m := Function.update m (context + TH_CONTEXT_MSTATUS * 4) ((3 <<< 11) ||| (1 <<< 3))
  let m := Function.update m (context + TH_CONTEXT_RA * 4) bootstrap
  Function.update m (context + TH_CONTEXT_SP * 4) stack_pointer

/-! ## The table as a list -/

/-- The general registers of the table and their offsets, in the order of the code. -/
def persistent : List (Reg × Word) :=
  [(s0, TH_CONTEXT_S0 * 4), (s1, TH_CONTEXT_S1 * 4), (s2, TH_CONTEXT_S2 * 4),
    (s3, TH_CONTEXT_S3 * 4), (s4, TH_CONTEXT_S4 * 4), (s5, TH_CONTEXT_S5 * 4),
    (s6, TH_CONTEXT_S6 * 4), (s7, TH_CONTEXT_S7 * 4), (s8, TH_CONTEXT_S8 * 4),
    (s9, TH_CONTEXT_S9 * 4), (s10, TH_CONTEXT_S10 * 4), (s11, TH_CONTEXT_S11 * 4),
    (ra, TH_CONTEXT_RA * 4), (sp, TH_CONTEXT_SP * 4)]

/-- `mstatus` and `mepc` go through `t0` and `t1`. -/
def csrs : List (Reg × Word) := [(t0, TH_CONTEXT_MSTATUS * 4), (t1, TH_CONTEXT_MEPC * 4)]

def entries : List (Reg × Word) := persistent ++ csrs

/-- What a thread finds again in the processor. -/
structure SameThread (s s' : Cpu) : Prop where
  reg : ∀ p ∈ persistent, s'.reg p.1 = s.reg p.1
  status : s'.csr .mstatus = s.csr .mstatus
  epc : s'.csr .mepc = s.csr .mepc

/-- The table at `context` holds what a thread has in the processor. -/
structure InContext (m : Word → Word) (context : Word) (s : Cpu) : Prop where
  reg : ∀ p ∈ persistent, m (context + p.2) = s.reg p.1
  status : m (context + TH_CONTEXT_MSTATUS * 4) = s.csr .mstatus
  epc : m (context + TH_CONTEXT_MEPC * 4) = s.csr .mepc

/-- The words of the table. -/
def Area (context a : Word) : Prop := ∃ p ∈ entries, a = context + p.2

theorem InContext.congr {m m' : Word → Word} {context : Word} {s : Cpu}
    (h : InContext m context s) (hm : ∀ a, Area context a → m' a = m a) :
    InContext m' context s where
  reg p hp := (hm _ ⟨p, List.mem_append_left _ hp, rfl⟩).trans (h.reg p hp)
  status := (hm _ ⟨(t0, _), by decide, rfl⟩).trans h.status
  epc := (hm _ ⟨(t1, _), by decide, rfl⟩).trans h.epc

theorem persistent_ne : ∀ p ∈ persistent, p.1 ≠ a0 ∧ p.1 ≠ t0 ∧ p.1 ≠ t1 :=
  Asm.forall_mem_of_all (by decide)

theorem persistent_offset_ne : ∀ p ∈ persistent, ∀ q ∈ csrs, p.2 ≠ q.2 :=
  Asm.forall_mem₂_of_all (by decide)

section
variable {C : Type} [DecidableEq C] {c : C} {callee : Word → Cpu × Mem C → Cpu × Mem C → Prop}
  {s s' : Cpu} {b : Mem C}

theorem entries_plain {i : Instr}
    (h : i ∈ persistent.map (fun p => Instr.sw p.1 p.2 a0) ++
      csrs.map (fun p => Instr.sw p.1 p.2 a0) ++ entries.map (fun p => Instr.lw p.1 p.2 a0)) :
    Asm.Plain (step c) i := by
  refine plain_of_isPlain ?_
  revert i
  decide

/-- `thread_context_save` returns 1 to its caller, with the thread in its table. -/
theorem save_leads : Asm.Leads (step c) callee thread_context_save
    (fun addr p => addr = s.reg ra ∧ p.1.reg a0 = 1 ∧ SameThread s p.1 ∧
      InContext p.2.mem (s.reg a0) s ∧ ∀ a, ¬ Area (s.reg a0) a → p.2.mem a = b.mem a)
    0 (s, b) := by
  have hreg : ∀ r : Reg, r ≠ t0 → r ≠ t1 →
      ((s.setReg t0 (s.csr .mstatus)).setReg t1 (s.csr .mepc)).reg r = s.reg r := by
    intro r h0 h1
    rw [Cpu.reg_setReg_of_ne h1, Cpu.reg_setReg_of_ne h0]
  obtain ⟨b1, hb1, hsaved, hother⟩ := block_sw (c := c) (b := b) (s := s) a0
    persistent (by decide)
  obtain ⟨b2, hb2, hcsrs, hrest⟩ := block_sw (c := c) (b := b1) a0 csrs
    (s := (s.setReg t0 (s.csr .mstatus)).setReg t1 (s.csr .mepc)) (by decide)
  rw [hreg a0 (by decide) (by decide)] at hcsrs hrest
  refine .block (persistent.map fun p => .sw p.1 p.2 a0)
    (fun i hi => entries_plain (by simp only [List.mem_append]; exact .inl (.inl hi)))
    ⟨_, rfl⟩ ?_
  rw [hb1]
  refine .next rfl rfl (.next rfl rfl ?_)
  change Asm.Leads (step c) callee thread_context_save _ 16
    ((s.setReg t0 (s.csr .mstatus)).setReg t1 (s.csr .mepc), b1)
  refine .block (csrs.map fun p => .sw p.1 p.2 a0)
    (fun i hi => entries_plain (by simp only [List.mem_append]; exact .inl (.inr hi)))
    ⟨[.li a0 1, .ret], rfl⟩ ?_
  rw [hb2]
  refine .next rfl rfl (.leave rfl rfl ⟨?_, ?_, ⟨?_, rfl, rfl⟩, ⟨?_, ?_, ?_⟩, ?_⟩)
  · exact (Cpu.reg_setReg_of_ne (by decide)).trans (hreg ra (by decide) (by decide))
  · exact Cpu.reg_setReg_self (by decide)
  · intro p hp
    obtain ⟨ha0, h0, h1⟩ := persistent_ne p hp
    exact (Cpu.reg_setReg_of_ne ha0).trans (hreg p.1 h0 h1)
  · intro p hp
    refine (hrest _ fun q hq heq => ?_).trans (hsaved p hp)
    exact persistent_offset_ne p hp q hq (add_left_cancel heq)
  · refine (hcsrs (t0, TH_CONTEXT_MSTATUS * 4) (by decide)).trans ?_
    rw [Cpu.reg_setReg_of_ne (by decide), Cpu.reg_setReg_self (by decide)]
  · exact (hcsrs (t1, TH_CONTEXT_MEPC * 4) (by decide)).trans (Cpu.reg_setReg_self (by decide))
  · intro a ha
    have hne : ∀ p ∈ entries, a ≠ s.reg a0 + p.2 := fun p hp hap => ha ⟨p, hp, hap⟩
    exact (hrest a fun p hp => hne p (List.mem_append_right _ hp)).trans
      (hother a fun p hp => hne p (List.mem_append_left _ hp))

/-- `thread_context_load` returns 0 in the thread that the table holds. -/
theorem load_leads (h : InContext b.mem (s.reg a0) s') :
    Asm.Leads (step c) callee thread_context_load
      (fun addr p => addr = s'.reg ra ∧ p.1.reg a0 = 0 ∧ SameThread s' p.1 ∧ p.2.mem = b.mem)
      0 (s, b) := by
  obtain ⟨r, hr, hloaded, -, -⟩ := block_lw (c := c) (b := b) (s := s) a0
    entries (by decide) (Asm.forall_mem_of_all (by decide))
  have hpers : ∀ p ∈ persistent, r.reg p.1 = s'.reg p.1 := fun p hp =>
    (hloaded p (List.mem_append_left _ hp)).trans (h.reg p hp)
  refine .block (entries.map fun p => .lw p.1 p.2 a0)
    (fun i hi => entries_plain (List.mem_append_right _ hi))
    ⟨[.csrw .mstatus t0, .csrw .mepc t1, .li a0 0, .ret], rfl⟩ ?_
  rw [hr]
  refine .next rfl rfl (.next rfl rfl (.next rfl rfl (.leave rfl rfl ⟨?_, ?_, ⟨?_, ?_, ?_⟩, rfl⟩)))
  · exact (Cpu.reg_setReg_of_ne (by decide)).trans (hpers (ra, TH_CONTEXT_RA * 4) (by decide))
  · exact Cpu.reg_setReg_self (by decide)
  · intro p hp
    exact (Cpu.reg_setReg_of_ne (persistent_ne p hp).1).trans (hpers p hp)
  · exact (hloaded (t0, TH_CONTEXT_MSTATUS * 4) (by decide)).trans h.status
  · exact (hloaded (t1, TH_CONTEXT_MEPC * 4) (by decide)).trans h.epc

/-- Neither routine calls a function, and both return. -/
theorem no_calls {i : Instr} (h : i ∈ thread_context_save ++ thread_context_load) :
    i.isCall = false := by
  revert i
  decide

theorem exists_save_exits (p : Cpu × Mem C) :
    ∃ addr p', Asm.Exits (step c) callee thread_context_save 0 p addr p' := by
  obtain ⟨addr, p', h, -⟩ := (save_leads (c := c) (s := p.1) (b := p.2)).exists_exits
    fun i hi q q' fn hfn =>
      absurd (congrArg Prod.snd hfn) (step_ne_call (no_calls (List.mem_append_left _ hi)))
  exact ⟨addr, p', h⟩

theorem exists_load_exits {p : Cpu × Mem C} (h : InContext p.2.mem (p.1.reg a0) s') :
    ∃ addr p', Asm.Exits (step c) callee thread_context_load 0 p addr p' := by
  obtain ⟨addr, p', he, -⟩ := (load_leads (c := c) h).exists_exits
    fun i hi q q' fn hfn =>
      absurd (congrArg Prod.snd hfn) (step_ne_call (no_calls (List.mem_append_right _ hi)))
  exact ⟨addr, p', he⟩

end

/-! ## The first context of a thread -/

/-- The offset of a register in the table. -/
def offset (r : Reg) : Word := ((entries.find? fun p => p.1 = r).map Prod.snd).getD 0

theorem offset_of_mem : ∀ p ∈ entries, p.1 ≠ 0 ∧ offset p.1 = p.2 :=
  Asm.forall_mem_of_all (by decide)

/-- What the processor has when it is loaded from a table. -/
def ofContext (m : Word → Word) (context : Word) : Cpu where
  gpr r := m (context + offset r)
  csr
    | .mstatus => m (context + TH_CONTEXT_MSTATUS * 4)
    | .mepc => m (context + TH_CONTEXT_MEPC * 4)
    | .mcause => 0

theorem ofContext_reg (m : Word → Word) (context : Word) {p : Reg × Word} (hp : p ∈ entries) :
    (ofContext m context).reg p.1 = m (context + p.2) := by
  obtain ⟨hne, hoff⟩ := offset_of_mem p hp
  rw [Cpu.reg, if_neg hne, ← hoff]
  rfl

theorem inContext_ofContext (m : Word → Word) (context : Word) :
    InContext m context (ofContext m context) where
  reg _ hp := (ofContext_reg m context (List.mem_append_left _ hp)).symm
  status := rfl
  epc := rfl

/-- The thread begins in `bootstrap`, on its stack, in machine mode. -/
theorem ofContext_init (m : Word → Word) (context bootstrap stack_pointer : Word) :
    let s := ofContext (thread_context_init m context bootstrap stack_pointer) context
    s.reg ra = bootstrap ∧ s.reg sp = stack_pointer ∧ s.csr .mstatus = 0x1808 := by
  have hne : ∀ {x y : Word}, x ≠ y → context + x ≠ context + y := fun h heq =>
    h (add_left_cancel heq)
  refine ⟨?_, ?_, ?_⟩
  · refine (ofContext_reg _ _ (p := (ra, TH_CONTEXT_RA * 4)) (by decide)).trans ?_
    rw [thread_context_init, Function.update_of_ne (hne (by decide)), Function.update_self]
  · refine (ofContext_reg _ _ (p := (sp, TH_CONTEXT_SP * 4)) (by decide)).trans ?_
    rw [thread_context_init, Function.update_self]
  · simp only [ofContext, thread_context_init]
    rw [Function.update_of_ne (hne (by decide)), Function.update_of_ne (hne (by decide)),
      Function.update_self]
    decide

theorem init_frame {m : Word → Word} {context bootstrap stack_pointer a : Word}
    (ha : ¬ Area context a) :
    thread_context_init m context bootstrap stack_pointer a = m a := by
  have hne : ∀ {p : Reg × Word}, p ∈ entries → a ≠ context + p.2 := fun hp hap => ha ⟨_, hp, hap⟩
  rw [thread_context_init, Function.update_of_ne (hne (p := (sp, _)) (by decide)),
    Function.update_of_ne (hne (p := (ra, _)) (by decide)),
    Function.update_of_ne (hne (p := (t0, _)) (by decide))]

end Ko6.Hal.Riscv
