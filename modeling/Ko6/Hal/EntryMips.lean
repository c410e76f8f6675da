import Ko6.Hal.MipsIsa

set_option autoImplicit false

/-!
# Hal: the entry into the kernel on the MIPS

`kentry` of `entry.S` with its two handlers.  The interrupt handler saves what a function
may destroy on the kernel's stack, calls `isrcall` and takes it back, so that the
interrupted program does not notice.  The system call handler keeps the return address, the
status and the stack of the thread there while the service runs.

A function called keeps what the calling convention says: `Keeps`.  `isrcall` has no
argument, and does not touch the words above its stack pointer; for a thread that is switched
away meanwhile, this is what it finds again when it is switched to.
-/

namespace Ko6.Hal.Mips

open Lib

/-! ## The code -/

variable (L : EntrySymbols)

/-- From `kentry` to `syscall_handler`; the labels are places of `entry_text`. -/
def kentry : List Instr :=
  [ .mfc0 26 13,
    .andi 26 26 0x3C,
    .li 27 0x20,
    .beq 26 27 6,
    .beq 26 0 32,
    .j L.kpanic ]

def syscall_handler : List Instr :=
  [ .li 26 L.ThreadCurrent,
    .lw 26 0 26,
    .lw 27 0 26,
    .sw 29 (-4) 27,
    .addiu 29 27 (-9 * 4),
    .mfc0 8 14,
    .mfc0 9 12,
    .addiu 8 8 4,
    .sw 31 (7 * 4) 29,
    .sw 8 (6 * 4) 29,
    .sw 9 (5 * 4) 29,
    .sw 2 (4 * 4) 29,
    .mtc0 0 12,
    .li 8 L.SyscallVector,
    .andi 2 2 (SYSCALL_NR - 1),
    .sll 2 2 2,
    .addu 2 8 2,
    .lw 2 0 2,
    .jalr 2,
    .lw 9 (5 * 4) 29,
    .lw 8 (6 * 4) 29,
    .lw 31 (7 * 4) 29,
    .mtc0 9 12,
    .mtc0 8 14,
    .lw 29 (8 * 4) 29,
    .eret ]

/-- `irq_handler`, `irq_user` and, from its place 7 on, `irq_kernel`. -/
def irq_handler : List Instr :=
  [ .mfc0 26 12,
    .ext 26 26 4 1,
    .move 27 29,
    .beq 26 0 39,
    .li 26 L.ThreadCurrent,
    .lw 26 0 26,
    .lw 29 0 26,
    .addiu 29 29 (-21 * 4),
    .sw 27 (20 * 4) 29,
    .sw 31 (19 * 4) 29,
    .sw 1 (1 * 4) 29,
    .sw 2 (2 * 4) 29,
    .sw 3 (3 * 4) 29,
    .sw 4 (4 * 4) 29,
    .sw 5 (5 * 4) 29,
    .sw 6 (6 * 4) 29,
    .sw 7 (7 * 4) 29,
    .sw 8 (8 * 4) 29,
    .sw 9 (9 * 4) 29,
    .sw 10 (10 * 4) 29,
    .sw 11 (11 * 4) 29,
    .sw 12 (12 * 4) 29,
    .sw 13 (13 * 4) 29,
    .sw 14 (14 * 4) 29,
    .sw 15 (15 * 4) 29,
    .sw 24 (16 * 4) 29,
    .sw 25 (17 * 4) 29,
    .mflo 2,
    .mfhi 3,
    .sw 2 (18 * 4) 29,
    .sw 3 0 29,
    .jal L.isrcall,
    .lw 3 0 29,
    .lw 2 (18 * 4) 29,
    .mthi 3,
    .mtlo 2,
    .lw 25 (17 * 4) 29,
    .lw 24 (16 * 4) 29,
    .lw 15 (15 * 4) 29,
    .lw 14 (14 * 4) 29,
    .lw 13 (13 * 4) 29,
    .lw 12 (12 * 4) 29,
    .lw 11 (11 * 4) 29,
    .lw 10 (10 * 4) 29,
    .lw 9 (9 * 4) 29,
    .lw 8 (8 * 4) 29,
    .lw 7 (7 * 4) 29,
    .lw 6 (6 * 4) 29,
    .lw 5 (5 * 4) 29,
    .lw 4 (4 * 4) 29,
    .lw 3 (3 * 4) 29,
    .lw 2 (2 * 4) 29,
    .lw 1 (1 * 4) 29,
    .lw 31 (19 * 4) 29,
    .lw 29 (20 * 4) 29,
    .eret ]

/-- The text from `kentry` to its end. -/
def entry_text : List Instr := kentry L ++ syscall_handler L ++ irq_handler L

/-! ## The calling convention -/

/-- The registers that a function keeps, the stack pointer among them. -/
def kept : List Reg := [16, 17, 18, 19, 20, 21, 22, 23, 28, 29, 30]

/-- What a function keeps for its caller: those registers, the status and the return address
of the exception, and the words `Held` of the memory. -/
structure Keeps {C : Type} (Held : Word → Prop) (p p' : Cpu × Mem C) : Prop where
  reg : ∀ r ∈ kept, p'.1.reg r = p.1.reg r
  status : p'.1.cp0 12 = p.1.cp0 12
  epc : p'.1.cp0 14 = p.1.cp0 14
  mem : ∀ a, Held a → p'.2.mem a = p.2.mem a

/-! ## Interrupts -/

/-- The registers saved and where, in the order of the code. -/
def saved : List (Reg × Word) :=
  [(27, 20 * 4), (31, 19 * 4), (1, 1 * 4), (2, 2 * 4), (3, 3 * 4), (4, 4 * 4), (5, 5 * 4),
    (6, 6 * 4), (7, 7 * 4), (8, 8 * 4), (9, 9 * 4), (10, 10 * 4), (11, 11 * 4), (12, 12 * 4),
    (13, 13 * 4), (14, 14 * 4), (15, 15 * 4), (24, 16 * 4), (25, 17 * 4)]

/-- Where `LO` and `HI` go, through `$2` and `$3`. -/
def savedHiLo : List (Reg × Word) := [(2, 18 * 4), (3, 0)]

/-- The registers taken back behind `isrcall`, in the order of the code. -/
def restored : List (Reg × Word) :=
  [(25, 17 * 4), (24, 16 * 4), (15, 15 * 4), (14, 14 * 4), (13, 13 * 4), (12, 12 * 4),
    (11, 11 * 4), (10, 10 * 4), (9, 9 * 4), (8, 8 * 4), (7, 7 * 4), (6, 6 * 4), (5, 5 * 4),
    (4, 4 * 4), (3, 3 * 4), (2, 2 * 4), (1, 1 * 4), (31, 19 * 4)]

/-- Bit 4 of the status register: 1 for a program in user mode. -/
def userMode (s : Cpu) : Word := (s.cp0 12 >>> 4) &&& (((1 : Word) <<< 1) - 1)

/-- Where the kernel's stack begins: that of the current thread, or, in the kernel already,
the stack in use. -/
def irqTop {C : Type} (s : Cpu) (b : Mem C) : Word :=
  if userMode s = 0 then s.reg 29 else b.mem (b.mem L.ThreadCurrent)

/-- The words that the interrupt handler writes. -/
def IrqFrame (top a : Word) : Prop :=
  ∃ p ∈ saved ++ savedHiLo, a = top + (-21 * 4) + p.2

/-- What the interrupted program finds again: everything but `$26` and `$27`, which are the
kernel's. -/
structure Undisturbed (s s' : Cpu) : Prop where
  reg : ∀ r, r ≠ 26 → r ≠ 27 → s'.reg r = s.reg r
  hi : s'.hi = s.hi
  lo : s'.lo = s.lo
  status : s'.cp0 12 = s.cp0 12 &&& ~~~exl

theorem savedHiLo_apart : ∀ p ∈ saved, ∀ q ∈ savedHiLo, p.2 ≠ q.2 :=
  Asm.forall_mem₂_of_all (by decide)

theorem restored_saved : ∀ p ∈ restored, p ∈ saved ∧ p.1 ≠ 27 :=
  Asm.forall_mem_of_all (by decide)

theorem restored_ne : ∀ p ∈ restored, p.1 ≠ 29 ∧ p.1 ≠ 0 := Asm.forall_mem_of_all (by decide)

/-- The registers, by how they come back. -/
theorem reg_cases : ∀ r : Reg, r = 0 ∨ r = 26 ∨ r = 27 ∨ r = 29 ∨
    r ≠ 29 ∧ r ∈ kept ∧ r ∉ restored.map Prod.fst ∨ r ∈ restored.map Prod.fst := by
  decide

theorem kept_ne : ∀ r ∈ kept, r ≠ 2 ∧ r ≠ 3 ∧ r ≠ 26 ∧ r ≠ 27 := Asm.forall_mem_of_all (by decide)

section
variable {C : Type} [DecidableEq C] {c : C} {callee : Word → Cpu × Mem C → Cpu × Mem C → Prop}
  {L} {s s2 : Cpu} {b : Mem C} {top : Word} {Held : Word → Prop}

theorem irq_plain {i : Instr}
    (h : i ∈ (saved ++ savedHiLo).map (fun p => Instr.sw p.1 p.2 29) ++
      (savedHiLo ++ restored).map (fun p => Instr.lw p.1 p.2 29)) :
    Asm.Plain (step c) i := by
  refine plain_of_isPlain ?_
  revert i
  decide

/-- The processor at `irq_kernel`: the previous stack pointer is in `$27`. -/
structure AtIrqKernel (s s2 : Cpu) (top : Word) : Prop where
  sp : s2.reg 29 = top
  previous : s2.reg 27 = s.reg 29
  reg : ∀ r, r ≠ 26 → r ≠ 27 → r ≠ 29 → s2.reg r = s.reg r
  hi : s2.hi = s.hi
  lo : s2.lo = s.lo
  cp0 : s2.cp0 = s.cp0

/-- From `irq_kernel` on: the registers are saved, `isrcall` runs, and they are taken back. -/
theorem irq_kernel_leads (h : AtIrqKernel s s2 top)
    (hcall : ∀ p p', callee L.isrcall p p' → Keeps Held p p')
    (hheld : ∀ a, IrqFrame top a → Held a) :
    Asm.Leads (step c) callee (entry_text L)
      (fun addr p => addr = s.cp0 14 ∧ Undisturbed s p.1 ∧
        ∀ a, Held a → ¬ IrqFrame top a → p.2.mem a = b.mem a) 39 (s2, b) := by
  obtain ⟨s3, hs3⟩ : ∃ s3, s3 = s2.setReg 29 (s2.reg 29 + (-21 * 4)) := ⟨_, rfl⟩
  have hsp : s3.reg 29 = top + (-21 * 4) := by
    rw [hs3, Cpu.reg_setReg_self (by decide), h.sp]
  have hreg3 : ∀ r, r ≠ 29 → s3.reg r = s2.reg r := fun r hr => hs3 ▸ Cpu.reg_setReg_of_ne hr
  -- the registers go to the stack
  obtain ⟨b1, hb1, hsaved, hother⟩ := block_sw (c := c) (b := b) 29 saved (s := s3) (by decide)
  rw [hsp] at hsaved hother
  refine .next rfl (congrArg (fun t => ((t, b), Asm.Next.next)) hs3.symm) ?_
  refine .block (saved.map fun p => .sw p.1 p.2 29)
    (fun i hi => irq_plain (List.mem_append_left _ (List.map_append ▸ List.mem_append_left _ hi)))
    ⟨(entry_text L).drop 59, rfl⟩ ?_
  rw [hb1]
  refine .next rfl rfl (.next rfl rfl ?_)
  obtain ⟨s4, hs4⟩ : ∃ s4, s4 = (s3.setReg 2 s3.lo).setReg 3 s3.hi := ⟨_, rfl⟩
  have hreg4 : ∀ r, r ≠ 2 → r ≠ 3 → s4.reg r = s3.reg r := by
    intro r h2 h3
    rw [hs4, Cpu.reg_setReg_of_ne h3, Cpu.reg_setReg_of_ne h2]
  have hsp4 : s4.reg 29 = top + (-21 * 4) := (hreg4 29 (by decide) (by decide)).trans hsp
  obtain ⟨b2, hb2, hhilo, hother2⟩ := block_sw (c := c) (b := b1) 29 savedHiLo (s := s4) (by decide)
  rw [hsp4] at hhilo hother2
  change Asm.Leads (step c) callee (entry_text L) _ 61
    ((s3.setReg 2 s3.lo).setReg 3 s3.hi, b1)
  rw [← hs4]
  refine .block (savedHiLo.map fun p => .sw p.1 p.2 29)
    (fun i hi => irq_plain (List.mem_append_left _ (List.map_append ▸ List.mem_append_right _ hi)))
    ⟨(entry_text L).drop 63, rfl⟩ ?_
  rw [hb2]
  have hframe : ∀ p ∈ saved, b2.mem (top + (-21 * 4) + p.2) = s3.reg p.1 := by
    intro p hp
    refine (hother2 _ fun q hq heq => ?_).trans (hsaved p hp)
    exact savedHiLo_apart p hp q hq (add_left_cancel heq)
  -- the call
  refine .call rfl rfl ?_
  rintro ⟨s5, b5⟩ hp5
  have hkeeps : Keeps Held (s4, b2) (s5, b5) := hcall _ _ hp5
  have hsp5 : s5.reg 29 = top + (-21 * 4) := (hkeeps.reg 29 (by decide)).trans hsp4
  have hsaved5 : ∀ p ∈ saved, b5.mem (top + (-21 * 4) + p.2) = s3.reg p.1 := fun p hp =>
    (hkeeps.mem _ (hheld _ ⟨p, List.mem_append_left _ hp, rfl⟩)).trans (hframe p hp)
  have hhilo5 : ∀ p ∈ savedHiLo, b5.mem (top + (-21 * 4) + p.2) = s4.reg p.1 := fun p hp =>
    (hkeeps.mem _ (hheld _ ⟨p, List.mem_append_right _ hp, rfl⟩)).trans (hhilo p hp)
  -- the registers come back
  obtain ⟨s6, hs6, hhilo6, hreg6, hcp6, -, -⟩ := block_lw (c := c) (b := b5) (s := s5) 29
    savedHiLo.reverse (by decide) (Asm.forall_mem_of_all (by decide))
  rw [hsp5] at hhilo6
  refine .block (savedHiLo.reverse.map fun p => .lw p.1 p.2 29)
    (fun i hi => irq_plain (List.mem_append_right _ (List.map_append ▸ List.mem_append_left _
      (by simpa using hi)))) ⟨(entry_text L).drop 66, rfl⟩ ?_
  rw [hs6]
  refine .next rfl rfl (.next rfl rfl ?_)
  obtain ⟨s7, hs7⟩ : ∃ s7 : Cpu, s7 = { s6 with hi := s6.reg 3, lo := s6.reg 2 } := ⟨_, rfl⟩
  change Asm.Leads (step c) callee (entry_text L) _ 68
    (({ s6 with hi := s6.reg 3, lo := s6.reg 2 } : Cpu), b5)
  rw [← hs7]
  have hreg7 : ∀ r, s7.reg r = s6.reg r := fun r => hs7 ▸ rfl
  have hsp7 : s7.reg 29 = top + (-21 * 4) :=
    (hreg7 29).trans ((hreg6 29 (Asm.forall_mem_of_all (by decide))).trans hsp5)
  obtain ⟨s8, hs8, hback, hreg8, hcp8, hhi8, hlo8⟩ := block_lw (c := c) (b := b5) (s := s7) 29
    restored (by decide) restored_ne
  rw [hsp7] at hback
  refine .block (restored.map fun p => .lw p.1 p.2 29)
    (fun i hi => irq_plain (List.mem_append_right _ (List.map_append ▸ List.mem_append_right _ hi)))
    ⟨(entry_text L).drop 86, rfl⟩ ?_
  rw [hs8]
  have hsp8 : s8.reg 29 = top + (-21 * 4) :=
    (hreg8 29 fun p hp => (restored_ne p hp).1.symm).trans hsp7
  have hcp : s8.cp0 = s5.cp0 := hcp8.trans ((congrArg Cpu.cp0 hs7).trans hcp6)
  have hcp4 : s4.cp0 = s.cp0 := by rw [hs4, hs3]; exact h.cp0
  refine .next rfl rfl (.leave rfl rfl ⟨?_, ⟨?_, ?_, ?_, ?_⟩, ?_⟩)
  · change s8.cp0 14 = s.cp0 14
    rw [hcp, hkeeps.epc, hcp4]
  · intro r h26 h27
    change ((s8.setReg 29 (b5.mem (s8.reg 29 + 20 * 4))).setCp0 12 _).reg r = s.reg r
    rw [Cpu.reg_setCp0]
    rcases reg_cases r with rfl | rfl | rfl | rfl | ⟨h29, hkept, hnot⟩ | hmem
    · rw [Cpu.reg_zero, Cpu.reg_zero]
    · exact absurd rfl h26
    · exact absurd rfl h27
    · rw [Cpu.reg_setReg_self (by decide), hsp8]
      refine (hsaved5 (27, 20 * 4) List.mem_cons_self).trans ?_
      exact (hreg3 27 (by decide)).trans h.previous
    · obtain ⟨h2, h3, -⟩ := kept_ne r hkept
      rw [Cpu.reg_setReg_of_ne h29, hreg8 r fun p hp e => hnot (List.mem_map.mpr ⟨p, hp, e.symm⟩),
        hreg7, hreg6 r ?_, hkeeps.reg r hkept, hreg4 r h2 h3, hreg3 r h29, h.reg r h26 h27 h29]
      intro p hp
      rcases List.mem_cons.mp hp with rfl | hp
      · exact h3
      · exact List.mem_singleton.mp hp ▸ h2
    · obtain ⟨p, hp, rfl⟩ := List.mem_map.mp hmem
      obtain ⟨hps, -⟩ := restored_saved p hp
      have h29 := (restored_ne p hp).1
      rw [Cpu.reg_setReg_of_ne h29, hback p hp, hsaved5 p hps, hreg3 _ h29, h.reg _ h26 h27 h29]
  · change s8.hi = s.hi
    rw [hhi8, hs7]
    refine (hhilo6 (3, 0) (by decide)).trans ((hhilo5 (3, 0) (by decide)).trans ?_)
    rw [hs4, Cpu.reg_setReg_self (by decide), hs3]
    exact h.hi
  · change s8.lo = s.lo
    rw [hlo8, hs7]
    refine (hhilo6 (2, 18 * 4) (by decide)).trans ((hhilo5 (2, 18 * 4) (by decide)).trans ?_)
    rw [hs4, Cpu.reg_setReg_of_ne (by decide), Cpu.reg_setReg_self (by decide), hs3]
    exact h.lo
  · change Function.update s8.cp0 12 (s8.cp0 12 &&& ~~~exl) 12 = s.cp0 12 &&& ~~~exl
    rw [Function.update_self, hcp, hkeeps.status, hcp4]
  · intro a ha hframe'
    have hb2 : b2.mem a = b1.mem a := hother2 a fun p hp e =>
      hframe' ⟨p, List.mem_append_right _ hp, e⟩
    have hb1 : b1.mem a = b.mem a := hother a fun p hp e =>
      hframe' ⟨p, List.mem_append_left _ hp, e⟩
    exact (hkeeps.mem a ha).trans (hb2.trans hb1)

/-- The branch of `irq_handler` on the mode in `$26`: it goes to the stack of the thread or stays
on the kernel's. -/
theorem irq_branch_leads (hmode : s2.reg 26 = userMode s)
    (hprev : s2.reg 27 = s.reg 29) (hreg : ∀ r, r ≠ 26 → r ≠ 27 → s2.reg r = s.reg r)
    (hhi : s2.hi = s.hi) (hlo : s2.lo = s.lo) (hcp0 : s2.cp0 = s.cp0)
    (hcall : ∀ p p', callee L.isrcall p p' → Keeps Held p p')
    (hheld : ∀ a, IrqFrame (irqTop L s b) a → Held a) :
    Asm.Leads (step c) callee (entry_text L)
      (fun addr p => addr = s.cp0 14 ∧ Undisturbed s p.1 ∧
        ∀ a, Held a → ¬ IrqFrame (irqTop L s b) a → p.2.mem a = b.mem a) 35 (s2, b) := by
  by_cases huser : userMode s = 0
  · have htop : irqTop L s b = s.reg 29 := if_pos huser
    rw [htop] at hheld ⊢
    refine .goto rfl (?_ : _ = ((s2, b), Asm.Next.goto 39)) (irq_kernel_leads
      ⟨hreg 29 (by decide) (by decide), hprev, fun r h26 h27 _ => hreg r h26 h27, hhi, hlo, hcp0⟩
      hcall hheld)
    simp only [step, exec, Cpu.reg_zero, hmode, huser, if_true]
  · have htop : irqTop L s b = b.mem (b.mem L.ThreadCurrent) := if_neg huser
    rw [htop] at hheld ⊢
    refine .next rfl (?_ : _ = ((s2, b), Asm.Next.next)) (.next rfl rfl (.next rfl rfl (.next rfl rfl
      (irq_kernel_leads ⟨?_, ?_, ?_, hhi, hlo, hcp0⟩ hcall hheld))))
    · simp only [step, exec, Cpu.reg_zero, hmode, huser, if_false]
    · simp only [exec, ne_eq, Fin.reduceEq, not_false_eq_true, Cpu.reg_setReg_self, add_zero]
    · refine (Cpu.reg_setReg_of_ne (by decide)).trans ?_
      refine (Cpu.reg_setReg_of_ne (by decide)).trans ?_
      exact (Cpu.reg_setReg_of_ne (by decide)).trans hprev
    · intro r h26 h27 h29
      refine (Cpu.reg_setReg_of_ne h29).trans ?_
      refine (Cpu.reg_setReg_of_ne h26).trans ?_
      exact (Cpu.reg_setReg_of_ne h26).trans (hreg r h26 h27)

/-- An interrupt is not noticed: from `kentry` the kernel comes back to the interrupted program
with every register but `$26` and `$27` as it was, outside of the exception level, and with the
words held by `isrcall` as they were, except those that the handler has used on the stack. -/
theorem irq_undisturbed (hcause : s.cp0 13 &&& 0x3C = 0)
    (hcall : ∀ p p', callee L.isrcall p p' → Keeps Held p p')
    (hheld : ∀ a, IrqFrame (irqTop L s b) a → Held a) :
    Asm.Leads (step c) callee (entry_text L)
      (fun addr p => addr = s.cp0 14 ∧ Undisturbed s p.1 ∧
        ∀ a, Held a → ¬ IrqFrame (irqTop L s b) a → p.2.mem a = b.mem a) 0 (s, b) := by
  obtain ⟨t, ht⟩ : ∃ t, t = ((s.setReg 26 (s.cp0 13)).setReg 26
      (s.cp0 13 &&& 0x3C)).setReg 27 0x20 := ⟨_, rfl⟩
  have hhi : t.hi = s.hi := ht ▸ rfl
  have hlo : t.lo = s.lo := ht ▸ rfl
  have hcp0 : t.cp0 = s.cp0 := ht ▸ rfl
  have h26 : t.reg 26 = 0 := by
    rw [ht, Cpu.reg_setReg_of_ne (by decide), Cpu.reg_setReg_self (by decide), hcause]
  have h27 : t.reg 27 = 0x20 := ht ▸ Cpu.reg_setReg_self (by decide)
  have hreg : ∀ r, r ≠ 26 → r ≠ 27 → t.reg r = s.reg r := by
    intro r hr26 hr27
    rw [ht, Cpu.reg_setReg_of_ne hr27, Cpu.reg_setReg_of_ne hr26, Cpu.reg_setReg_of_ne hr26]
  refine .next rfl rfl (.next rfl rfl (.next rfl (?_ : _ = ((t, b), Asm.Next.next))
    (.next rfl (?_ : _ = ((t, b), Asm.Next.next)) (.goto rfl (?_ : _ = ((t, b), Asm.Next.goto 32))
      (.next rfl rfl (.next rfl rfl (.next rfl rfl
        (irq_branch_leads ?_ ?_ ?_ ?_ ?_ ?_ hcall hheld))))))))
  · rw [ht]
    simp only [step, exec, ne_eq, Fin.reduceEq, not_false_eq_true, Cpu.reg_setReg_self]
  · simp only [step, exec, h26, h27]
    rfl
  · simp only [step, exec, h26, Cpu.reg_zero, if_true]
  · refine (Cpu.reg_setReg_of_ne (by decide)).trans ((Cpu.reg_setReg_self (by decide)).trans ?_)
    simp only [exec, ne_eq, Fin.reduceEq, not_false_eq_true, Cpu.reg_setReg_self]
    rw [ht]
    rfl
  · refine (Cpu.reg_setReg_self (by decide)).trans ?_
    refine (Cpu.reg_setReg_of_ne (by decide)).trans ?_
    exact (Cpu.reg_setReg_of_ne (by decide)).trans (hreg 29 (by decide) (by decide))
  · intro r hr26 hr27
    refine (Cpu.reg_setReg_of_ne hr27).trans ((Cpu.reg_setReg_of_ne hr26).trans ?_)
    exact (Cpu.reg_setReg_of_ne hr26).trans (hreg r hr26 hr27)
  · exact hhi
  · exact hlo
  · exact hcp0

end

/-- A program in user mode with its registers at 0x8000 and `cause` in the cause register. -/
def program (cause : Word) : Cpu where
  gpr r := if r = 2 then 3 else 0x8000
  hi := 1
  lo := 2
  cp0 r := if r = 12 then 0x413 else if r = 13 then cause else 0x400000

/-- The addresses of a small kernel. -/
def smallKernel : EntrySymbols where
  ThreadCurrent := 0x1000
  SyscallVector := 0x2000
  isrcall := 0x3000
  kpanic := 0x4000

/-- The thread at 0x5000 with its kernel's stack at 0x6000, and a service at 0x7000. -/
def smallMem : Mem Unit where
  mem a := if a = 0x1000 then 0x5000 else if a = 0x5000 then 0x6000 else
    if a = 0x200C then 0x7000 else 0
  link _ := none

/-- A function that destroys `$8` and returns 42. -/
def destroys (_ : Word) (p p' : Cpu × Mem Unit) : Prop :=
  p' = ((p.1.setReg 8 7).setReg 2 42, p.2)

theorem destroys_keeps {fn : Word} {p p' : Cpu × Mem Unit} (h : destroys fn p p') :
    Keeps (fun _ => True) p p' := by
  cases h
  refine ⟨fun r hr => ?_, rfl, rfl, fun _ _ => rfl⟩
  have hne : ∀ r ∈ kept, r ≠ 2 ∧ r ≠ 8 := Asm.forall_mem_of_all (by decide)
  obtain ⟨h2, h8⟩ := hne r hr
  exact (Cpu.reg_setReg_of_ne h2).trans (Cpu.reg_setReg_of_ne h8)

/-- The program finds `$8` again after an interrupt. -/
theorem irq_undisturbed_program :
    Asm.Leads (step ()) destroys (entry_text smallKernel)
      (fun addr p => addr = 0x400000 ∧ p.1.reg 8 = 0x8000) 0 (program 0, smallMem) := by
  have hcause : (program 0).cp0 13 &&& 0x3C = 0 := rfl
  refine (irq_undisturbed hcause (fun _ _ h => destroys_keeps h) fun _ _ => trivial).mono
    (fun _ _ _ h => h) ?_
  rintro addr p ⟨haddr, hsame, -⟩
  exact ⟨haddr, hsame.reg 8 (by decide) (by decide)⟩

/-! ## System calls -/

section
variable {C : Type} [DecidableEq C] {c : C} {callee : Word → Cpu × Mem C → Cpu × Mem C → Prop}
  {L} {s : Cpu} {b : Mem C} {Held : Word → Prop}

/-- The words that the system call handler writes, below the kernel's stack pointer of the
thread: the user's stack pointer, `$31`, the return address, the status and the code. -/
def SyscallFrame (top a : Word) : Prop :=
  ∃ o : Word, o ∈ ([8 * 4, 7 * 4, 6 * 4, 5 * 4, 4 * 4] : List Word) ∧ a = top + (-9 * 4) + o

/-- The end of the handler, behind the service. -/
theorem syscall_return_leads {base sr epc ra sp : Word} (h29 : s.reg 29 = base)
    (hsr : b.mem (base + 5 * 4) = sr) (hepc : b.mem (base + 6 * 4) = epc)
    (hra : b.mem (base + 7 * 4) = ra) (hsp : b.mem (base + 8 * 4) = sp) :
    Asm.Leads (step c) callee (entry_text L)
      (fun addr p => addr = epc ∧ p.1.reg 31 = ra ∧ p.1.reg 29 = sp ∧
        p.1.cp0 12 = sr &&& ~~~exl ∧
        (∀ r, r ≠ 8 → r ≠ 9 → r ≠ 29 → r ≠ 31 → p.1.reg r = s.reg r) ∧ p.2 = b) 25 (s, b) := by
  obtain ⟨s1, hs1, hback, hreg, hcp, -, -⟩ := block_lw (c := c) (b := b) (s := s) 29
    [(9, 5 * 4), (8, 6 * 4), (31, 7 * 4)] (by decide) (Asm.forall_mem_of_all (by decide))
  rw [h29] at hback
  have h29' : s1.reg 29 = base := (hreg 29 (Asm.forall_mem_of_all (by decide))).trans h29
  refine .block ([((9 : Reg), (5 * 4 : Word)), (8, 6 * 4), (31, 7 * 4)].map fun p =>
    .lw p.1 p.2 29) (by
      intro i hi
      refine plain_of_isPlain ?_
      revert i
      decide) ⟨(entry_text L).drop 28, rfl⟩ ?_
  rw [hs1]
  refine .next rfl rfl (.next rfl rfl (.next rfl rfl (.leave rfl rfl ⟨?_, ?_, ?_, ?_, ?_, rfl⟩)))
  · exact (hback (8, 6 * 4) (by decide)).trans hepc
  · change (s1.setReg 29 (b.mem (s1.reg 29 + 8 * 4))).reg 31 = ra
    rw [Cpu.reg_setReg_of_ne (by decide)]
    exact (hback (31, 7 * 4) (by decide)).trans hra
  · change (s1.setReg 29 (b.mem (s1.reg 29 + 8 * 4))).reg 29 = sp
    rw [Cpu.reg_setReg_self (by decide), h29', hsp]
  · have h9 : s1.reg 9 = sr := (hback (9, 5 * 4) (by decide)).trans hsr
    change s1.reg 9 &&& ~~~exl = sr &&& ~~~exl
    rw [h9]
  · intro r h8 h9 h29 h31
    change (s1.setReg 29 (b.mem (s1.reg 29 + 8 * 4))).reg r = s.reg r
    rw [Cpu.reg_setReg_of_ne h29]
    refine hreg r fun p hp => ?_
    simp only [List.mem_cons, List.not_mem_nil, or_false] at hp
    rcases hp with rfl | rfl | rfl <;> assumption

/-- What a system call of `s` has done when the thread goes on in `p`, the service being at
`fn`: it has been called in kernel mode without interrupts, with the four arguments of the
thread, and its result is in `$2`. -/
structure Served (callee : Word → Cpu × Mem C → Cpu × Mem C → Prop) (fn : Word) (s : Cpu)
    (p : Cpu × Mem C) : Prop where
  call : ∃ p3 p5, callee fn p3 p5 ∧ p3.1.cp0 12 = 0 ∧
    (∀ r ∈ ([4, 5, 6, 7] : List Reg), p3.1.reg r = s.reg r) ∧ p.1.reg 2 = p5.1.reg 2
  reg : ∀ r ∈ kept, r ≠ 29 → p.1.reg r = s.reg r

/-- What a service keeps for its caller: the status and the return address of the exception
are kept by the handler. -/
structure ServiceKeeps (Held : Word → Prop) (p p' : Cpu × Mem C) : Prop where
  reg : ∀ r ∈ kept, p'.1.reg r = p.1.reg r
  mem : ∀ a, Held a → p'.2.mem a = p.2.mem a

/-- The call of the service, with the frame on the stack already. -/
theorem syscall_call_leads {fn base sr epc ra sp : Word} {s0 : Cpu} (h2 : s.reg 2 = fn)
    (h12 : s.cp0 12 = 0) (h29 : s.reg 29 = base)
    (hargs : ∀ r ∈ ([4, 5, 6, 7] : List Reg), s.reg r = s0.reg r)
    (hregs : ∀ r ∈ kept, r ≠ 29 → s.reg r = s0.reg r)
    (hsr : b.mem (base + 5 * 4) = sr) (hepc : b.mem (base + 6 * 4) = epc)
    (hra : b.mem (base + 7 * 4) = ra) (hsp : b.mem (base + 8 * 4) = sp)
    (hcall : ∀ p p', callee fn p p' → ServiceKeeps Held p p')
    (hheld : ∀ o ∈ ([8 * 4, 7 * 4, 6 * 4, 5 * 4] : List Word), Held (base + o)) :
    Asm.Leads (step c) callee (entry_text L)
      (fun addr p => addr = epc ∧ p.1.reg 31 = ra ∧ p.1.reg 29 = sp ∧
        p.1.cp0 12 = sr &&& ~~~exl ∧ Served callee fn s0 p ∧
        ∀ a, Held a → p.2.mem a = b.mem a) 24 (s, b) := by
  refine .call rfl (?_ : _ = ((s, b), Asm.Next.call fn)) ?_
  · rw [← h2]
    rfl
  rintro ⟨s5, b5⟩ hp5
  have hkeeps := hcall _ _ hp5
  have hword : ∀ o ∈ ([8 * 4, 7 * 4, 6 * 4, 5 * 4] : List Word),
      b5.mem (base + o) = b.mem (base + o) := fun o ho => hkeeps.mem _ (hheld o ho)
  have h29' : s5.reg 29 = base := (hkeeps.reg 29 (by decide)).trans h29
  refine (syscall_return_leads h29' ((hword (5 * 4) (by decide)).trans hsr)
    ((hword (6 * 4) (by decide)).trans hepc) ((hword (7 * 4) (by decide)).trans hra)
    ((hword (8 * 4) (by decide)).trans hsp)).mono (fun _ _ _ h => h) ?_
  rintro addr ⟨s6, b6⟩ ⟨haddr, h31, hsp', h12', hreg6, hmem⟩
  obtain rfl : b6 = b5 := hmem
  refine ⟨haddr, h31, hsp', h12', ⟨⟨(s, b), (s5, b6), hp5, h12, hargs, ?_⟩, ?_⟩, hkeeps.mem⟩
  · exact hreg6 2 (by decide) (by decide) (by decide) (by decide)
  · intro r hr hne
    have hother : ∀ r ∈ kept, r ≠ 8 ∧ r ≠ 9 ∧ r ≠ 31 := Asm.forall_mem_of_all (by decide)
    obtain ⟨h8, h9, h31⟩ := hother r hr
    exact (hreg6 r h8 h9 hne h31).trans ((hkeeps.reg r hr).trans (hregs r hr hne))

/-- From the change of mode on: the service is looked up and called. -/
theorem syscall_lookup_leads {base sr epc ra sp : Word} {s0 : Cpu} (h29 : s.reg 29 = base)
    (hargs : ∀ r ∈ ([4, 5, 6, 7] : List Reg), s.reg r = s0.reg r)
    (hregs : ∀ r ∈ kept, r ≠ 29 → s.reg r = s0.reg r)
    (hsr : b.mem (base + 5 * 4) = sr) (hepc : b.mem (base + 6 * 4) = epc)
    (hra : b.mem (base + 7 * 4) = ra) (hsp : b.mem (base + 8 * 4) = sp)
    (hcall : ∀ p p', callee (b.mem (L.SyscallVector + ((s.reg 2 &&& (SYSCALL_NR - 1)) <<< 2)))
      p p' → ServiceKeeps Held p p')
    (hheld : ∀ o ∈ ([8 * 4, 7 * 4, 6 * 4, 5 * 4] : List Word), Held (base + o)) :
    Asm.Leads (step c) callee (entry_text L)
      (fun addr p => addr = epc ∧ p.1.reg 31 = ra ∧ p.1.reg 29 = sp ∧
        p.1.cp0 12 = sr &&& ~~~exl ∧
        Served callee (b.mem (L.SyscallVector + ((s.reg 2 &&& (SYSCALL_NR - 1)) <<< 2))) s0 p ∧
        ∀ a, Held a → p.2.mem a = b.mem a) 18 (s, b) := by
  have hsame : ∀ (r : Reg) (v v1 v2 v3 v4 v5 : Word), r ≠ 2 → r ≠ 8 →
      ((((((s.setCp0 12 v).setReg 8 v1).setReg 2 v2).setReg 2 v3).setReg 2 v4).setReg 2 v5).reg r =
        s.reg r := by
    intro r v v1 v2 v3 v4 v5 h2 h8
    rw [Cpu.reg_setReg_of_ne h2, Cpu.reg_setReg_of_ne h2, Cpu.reg_setReg_of_ne h2,
      Cpu.reg_setReg_of_ne h2, Cpu.reg_setReg_of_ne h8, Cpu.reg_setCp0]
  refine .next rfl rfl (.next rfl rfl (.next rfl rfl (.next rfl rfl (.next rfl rfl
    (.next rfl rfl (syscall_call_leads ?_ ?_ ?_ ?_ ?_ hsr hepc hra hsp hcall hheld))))))
  · simp only [exec, ne_eq, Fin.reduceEq, not_false_eq_true, Cpu.reg_setReg_self,
      Cpu.reg_setReg_of_ne, Cpu.reg_setCp0, add_zero]
  · rfl
  · exact (hsame 29 _ _ _ _ _ _ (by decide) (by decide)).trans h29
  · intro r hr
    have hne : ∀ r ∈ ([4, 5, 6, 7] : List Reg), r ≠ 2 ∧ r ≠ 8 := Asm.forall_mem_of_all (by decide)
    exact (hsame r _ _ _ _ _ _ (hne r hr).1 (hne r hr).2).trans (hargs r hr)
  · intro r hr h29
    have hne : ∀ r ∈ kept, r ≠ 2 ∧ r ≠ 8 := Asm.forall_mem_of_all (by decide)
    exact (hsame r _ _ _ _ _ _ (hne r hr).1 (hne r hr).2).trans (hregs r hr h29)

/-- From the stores of the frame on. -/
theorem syscall_frame_leads {top epc : Word} {s0 : Cpu} (h29 : s.reg 29 = top + (-9 * 4))
    (h8 : s.reg 8 = epc) (h9 : s.reg 9 = s0.cp0 12) (h31 : s.reg 31 = s0.reg 31)
    (h2 : s.reg 2 = s0.reg 2) (hargs : ∀ r ∈ ([4, 5, 6, 7] : List Reg), s.reg r = s0.reg r)
    (hregs : ∀ r ∈ kept, r ≠ 29 → s.reg r = s0.reg r)
    (hsp : b.mem (top + (-9 * 4) + 8 * 4) = s0.reg 29) {fn : Word}
    (hfn : b.mem (L.SyscallVector + ((s0.reg 2 &&& (SYSCALL_NR - 1)) <<< 2)) = fn)
    (hvector : ¬ SyscallFrame top (L.SyscallVector + ((s0.reg 2 &&& (SYSCALL_NR - 1)) <<< 2)))
    (hcall : ∀ p p', callee fn p p' → ServiceKeeps Held p p')
    (hheld : ∀ a, SyscallFrame top a → Held a) :
    Asm.Leads (step c) callee (entry_text L)
      (fun addr p => addr = epc ∧ p.1.reg 31 = s0.reg 31 ∧ p.1.reg 29 = s0.reg 29 ∧
        p.1.cp0 12 = s0.cp0 12 &&& ~~~exl ∧ Served callee fn s0 p ∧
        ∀ a, Held a → ¬ SyscallFrame top a → p.2.mem a = b.mem a) 14 (s, b) := by
  obtain ⟨b1, hb1, hsaved, hother⟩ := block_sw (c := c) (b := b) (s := s) 29
    [(31, 7 * 4), (8, 6 * 4), (9, 5 * 4), (2, 4 * 4)] (by decide)
  rw [h29] at hsaved hother
  have hframe : ∀ a, ¬ SyscallFrame top a → b1.mem a = b.mem a := by
    intro a ha
    refine hother a fun p hp e => ha ⟨p.2, ?_, e⟩
    have hoffset : ∀ p ∈ ([(31, 7 * 4), (8, 6 * 4), (9, 5 * 4), (2, 4 * 4)] : List (Reg × Word)),
        p.2 ∈ ([8 * 4, 7 * 4, 6 * 4, 5 * 4, 4 * 4] : List Word) :=
      Asm.forall_mem_of_all (by decide)
    exact hoffset p hp
  have hsp1 : b1.mem (top + (-9 * 4) + 8 * 4) = s0.reg 29 := by
    refine (hother _ fun p hp e => ?_).trans hsp
    have hne : ∀ p ∈ ([(31, 7 * 4), (8, 6 * 4), (9, 5 * 4), (2, 4 * 4)] : List (Reg × Word)),
        (8 * 4 : Word) ≠ p.2 := Asm.forall_mem_of_all (by decide)
    exact hne p hp (add_left_cancel e)
  refine .block ([((31 : Reg), (7 * 4 : Word)), (8, 6 * 4), (9, 5 * 4), (2, 4 * 4)].map fun p =>
    .sw p.1 p.2 29) (by
      intro i hi
      refine plain_of_isPlain ?_
      revert i
      decide) ⟨(entry_text L).drop 18, rfl⟩ ?_
  rw [hb1]
  have hfn1 : b1.mem (L.SyscallVector + ((s.reg 2 &&& (SYSCALL_NR - 1)) <<< 2)) = fn := by
    rw [h2]
    exact (hframe _ hvector).trans hfn
  refine (syscall_lookup_leads h29 hargs hregs
    ((hsaved (9, 5 * 4) (by decide)).trans h9) ((hsaved (8, 6 * 4) (by decide)).trans h8)
    ((hsaved (31, 7 * 4) (by decide)).trans h31) hsp1 (hfn1.symm ▸ hcall) ?_).mono
    (fun _ _ _ h => h) ?_
  · intro o ho
    exact hheld _ ⟨o, List.mem_append_left [4 * 4] ho, rfl⟩
  · rintro addr p ⟨haddr, hra, hsp', hsr, hserved, hmem⟩
    exact ⟨haddr, hra, hsp', hsr, hfn1 ▸ hserved, fun a ha hnot =>
      (hmem a ha).trans (hframe a hnot)⟩

/-- The handler behind the load of the kernel's stack pointer. -/
theorem syscall_stack_leads {top fn : Word} {s0 : Cpu} (h27 : s.reg 27 = top)
    (hreg : ∀ r, r ≠ 26 → r ≠ 27 → s.reg r = s0.reg r) (hcp0 : s.cp0 = s0.cp0)
    (hfn : b.mem (L.SyscallVector + ((s0.reg 2 &&& (SYSCALL_NR - 1)) <<< 2)) = fn)
    (hvector : ¬ SyscallFrame top (L.SyscallVector + ((s0.reg 2 &&& (SYSCALL_NR - 1)) <<< 2)))
    (hcall : ∀ p p', callee fn p p' → ServiceKeeps Held p p')
    (hheld : ∀ a, SyscallFrame top a → Held a) :
    Asm.Leads (step c) callee (entry_text L)
      (fun addr p => addr = s0.cp0 14 + 4 ∧ p.1.reg 31 = s0.reg 31 ∧ p.1.reg 29 = s0.reg 29 ∧
        p.1.cp0 12 = s0.cp0 12 &&& ~~~exl ∧ Served callee fn s0 p ∧
        ∀ a, Held a → ¬ SyscallFrame top a → p.2.mem a = b.mem a) 9 (s, b) := by
  have htop : top + (-4) = top + (-9 * 4) + 8 * 4 := by
    rw [add_assoc]
    rfl
  obtain ⟨s1, hs1⟩ : ∃ s1, s1 = s.setReg 29 (top + (-9 * 4)) := ⟨_, rfl⟩
  obtain ⟨s2, hs2⟩ : ∃ s2, s2 = s1.setReg 8 (s1.cp0 14) := ⟨_, rfl⟩
  obtain ⟨s3, hs3⟩ : ∃ s3, s3 = s2.setReg 9 (s2.cp0 12) := ⟨_, rfl⟩
  obtain ⟨s4, hs4⟩ : ∃ s4, s4 = s3.setReg 8 (s3.reg 8 + 4) := ⟨_, rfl⟩
  have hsame : ∀ r, r ≠ 8 → r ≠ 9 → s4.reg r = s1.reg r := by
    intro r h8 h9
    rw [hs4, Cpu.reg_setReg_of_ne h8, hs3, Cpu.reg_setReg_of_ne h9, hs2, Cpu.reg_setReg_of_ne h8]
  have hback : ∀ r, r ≠ 8 → r ≠ 9 → r ≠ 29 → r ≠ 26 → r ≠ 27 → s4.reg r = s0.reg r := by
    intro r h8 h9 h29 h26 h27
    rw [hsame r h8 h9, hs1, Cpu.reg_setReg_of_ne h29, hreg r h26 h27]
  have hcp1 : s1.cp0 = s0.cp0 := hs1 ▸ hcp0
  have hcp2 : s2.cp0 = s0.cp0 := hs2 ▸ hcp1
  obtain ⟨b1, hb1⟩ : ∃ b1, b1 = b.store (top + (-4)) (s0.reg 29) := ⟨_, rfl⟩
  have hmem : ∀ a, a ≠ top + (-4) → b1.mem a = b.mem a := by
    intro a ha
    rw [hb1, Bus.store_mem, Function.update_of_ne ha]
  have hout : ∀ a, ¬ SyscallFrame top a → a ≠ top + (-4) := by
    rintro a ha rfl
    exact ha ⟨8 * 4, List.mem_cons_self, htop⟩
  refine .next rfl (?_ : _ = ((s, b1), Asm.Next.next)) (.next rfl (?_ : _ = ((s1, b1), Asm.Next.next)) (.next rfl (?_ : _ = ((s2, b1), Asm.Next.next))
    (.next rfl (?_ : _ = ((s3, b1), Asm.Next.next)) (.next rfl (?_ : _ = ((s4, b1), Asm.Next.next)) ?_))))
  · rw [hb1, ← hreg 29 (by decide) (by decide), ← h27]
    rfl
  · rw [hs1, ← h27]
    rfl
  · rw [hs2]
    rfl
  · rw [hs3]
    rfl
  · rw [hs4]
    rfl
  have h29 : s4.reg 29 = top + (-9 * 4) := by
    rw [hsame 29 (by decide) (by decide), hs1, Cpu.reg_setReg_self (by decide)]
  have h8 : s4.reg 8 = s0.cp0 14 + 4 := by
    rw [hs4, Cpu.reg_setReg_self (by decide), hs3, Cpu.reg_setReg_of_ne (by decide), hs2,
      Cpu.reg_setReg_self (by decide), hcp1]
  have h9 : s4.reg 9 = s0.cp0 12 := by
    rw [hs4, Cpu.reg_setReg_of_ne (by decide), hs3, Cpu.reg_setReg_self (by decide), hcp2]
  have h31 := hback 31 (by decide) (by decide) (by decide) (by decide) (by decide)
  have h2 := hback 2 (by decide) (by decide) (by decide) (by decide) (by decide)
  have hargs : ∀ r ∈ ([4, 5, 6, 7] : List Reg), s4.reg r = s0.reg r := by
    have hne : ∀ r ∈ ([4, 5, 6, 7] : List Reg), r ≠ 8 ∧ r ≠ 9 ∧ r ≠ 29 ∧ r ≠ 26 ∧ r ≠ 27 :=
      Asm.forall_mem_of_all (by decide)
    intro r hr
    obtain ⟨h8, h9, h29, h26, h27⟩ := hne r hr
    exact hback r h8 h9 h29 h26 h27
  have hregs : ∀ r ∈ kept, r ≠ 29 → s4.reg r = s0.reg r := by
    have hne : ∀ r ∈ kept, r ≠ 8 ∧ r ≠ 9 := Asm.forall_mem_of_all (by decide)
    intro r hr h29
    obtain ⟨-, -, h26, h27⟩ := kept_ne r hr
    exact hback r (hne r hr).1 (hne r hr).2 h29 h26 h27
  have hsp : b1.mem (top + (-9 * 4) + 8 * 4) = s0.reg 29 := by
    rw [hb1, ← htop, Bus.store_mem, Function.update_self]
  refine (syscall_frame_leads h29 h8 h9 h31 h2 hargs hregs hsp
    ((hmem _ (hout _ hvector)).trans hfn) hvector hcall hheld).mono (fun _ _ _ h => h) ?_
  rintro addr p ⟨haddr, hra, hsp', hsr, hserved, hother⟩
  exact ⟨haddr, hra, hsp', hsr, hserved, fun a ha hnot =>
    (hother a ha hnot).trans (hmem a (hout a hnot))⟩

/-- A system call runs its service: from `kentry` the kernel comes back behind the instruction
of the call, on the stack of the thread and with its status, with the service's result in
`$2`, the registers of the calling convention as they were, and the words held by the service
as they were, except those that the handler has used on the stack. -/
theorem syscall_served {fn : Word} (hcause : s.cp0 13 &&& 0x3C = 0x20)
    (hfn : b.mem (L.SyscallVector + ((s.reg 2 &&& (SYSCALL_NR - 1)) <<< 2)) = fn)
    (hvector : ¬ SyscallFrame (b.mem (b.mem L.ThreadCurrent))
      (L.SyscallVector + ((s.reg 2 &&& (SYSCALL_NR - 1)) <<< 2)))
    (hcall : ∀ p p', callee fn p p' → ServiceKeeps Held p p')
    (hheld : ∀ a, SyscallFrame (b.mem (b.mem L.ThreadCurrent)) a → Held a) :
    Asm.Leads (step c) callee (entry_text L)
      (fun addr p => addr = s.cp0 14 + 4 ∧ p.1.reg 31 = s.reg 31 ∧ p.1.reg 29 = s.reg 29 ∧
        p.1.cp0 12 = s.cp0 12 &&& ~~~exl ∧ Served callee fn s p ∧
        ∀ a, Held a → ¬ SyscallFrame (b.mem (b.mem L.ThreadCurrent)) a →
          p.2.mem a = b.mem a) 0 (s, b) := by
  obtain ⟨top, htop⟩ : ∃ top, top = b.mem (b.mem L.ThreadCurrent) := ⟨_, rfl⟩
  rw [← htop] at hvector hheld ⊢
  obtain ⟨u, hu⟩ : ∃ u, u = ((s.setReg 26 (s.cp0 13)).setReg 26
      (s.cp0 13 &&& 0x3C)).setReg 27 0x20 := ⟨_, rfl⟩
  have hu26 : u.reg 26 = u.reg 27 := by
    rw [hu, Cpu.reg_setReg_of_ne (by decide), Cpu.reg_setReg_self (by decide), hcause,
      Cpu.reg_setReg_self (by decide)]
  obtain ⟨t, ht⟩ : ∃ t, t = ((u.setReg 26 L.ThreadCurrent).setReg 26
      (b.mem L.ThreadCurrent)).setReg 27 top := ⟨_, rfl⟩
  have ht27 : t.reg 27 = top := ht ▸ Cpu.reg_setReg_self (by decide)
  have htreg : ∀ r, r ≠ 26 → r ≠ 27 → t.reg r = s.reg r := by
    intro r h26 h27
    rw [ht, Cpu.reg_setReg_of_ne h27, Cpu.reg_setReg_of_ne h26, Cpu.reg_setReg_of_ne h26, hu,
      Cpu.reg_setReg_of_ne h27, Cpu.reg_setReg_of_ne h26, Cpu.reg_setReg_of_ne h26]
  have htcp0 : t.cp0 = s.cp0 := by
    rw [ht, hu]
    rfl
  refine .next rfl rfl (.next rfl rfl (.next rfl (?_ : _ = ((u, b), Asm.Next.next))
    (.goto rfl (?_ : _ = ((u, b), Asm.Next.goto 6)) (.next rfl rfl (.next rfl rfl
      (.next rfl (?_ : _ = ((t, b), Asm.Next.next))
        (syscall_stack_leads ht27 htreg htcp0 hfn hvector hcall hheld)))))))
  · rw [hu]
    simp only [exec, ne_eq, Fin.reduceEq, not_false_eq_true, Cpu.reg_setReg_self]
    rw [step, exec]
  · simp only [step, exec, hu26, if_true]
  · rw [ht, htop]
    simp only [step, exec, ne_eq, Fin.reduceEq, not_false_eq_true, Cpu.reg_setReg_self, add_zero]

end

/-- The program finds the result of service 3 behind its system call. -/
theorem syscall_served_program :
    Asm.Leads (step ()) destroys (entry_text smallKernel)
      (fun addr p => addr = 0x400004 ∧ p.1.reg 2 = 42 ∧ p.1.reg 16 = 0x8000) 0
      (program 0x20, smallMem) := by
  have hvector : ¬ SyscallFrame (smallMem.mem (smallMem.mem smallKernel.ThreadCurrent))
      (smallKernel.SyscallVector + (((program 0x20).reg 2 &&& (SYSCALL_NR - 1)) <<< 2)) := by
    have hne : ∀ o ∈ ([8 * 4, 7 * 4, 6 * 4, 5 * 4, 4 * 4] : List Word),
        (0x200C : Word) ≠ 0x6000 + (-9 * 4) + o := Asm.forall_mem_of_all (by decide)
    rintro ⟨o, ho, h⟩
    exact hne o ho h
  have hcause : (program 0x20).cp0 13 &&& 0x3C = 0x20 := rfl
  have hfn : smallMem.mem (smallKernel.SyscallVector +
      (((program 0x20).reg 2 &&& (SYSCALL_NR - 1)) <<< 2)) = 0x7000 := rfl
  have hcall : ∀ p p', destroys 0x7000 p p' → ServiceKeeps (fun _ => True) p p' :=
    fun _ _ h => ⟨(destroys_keeps h).reg, (destroys_keeps h).mem⟩
  refine (syscall_served hcause hfn hvector hcall fun _ _ => trivial).mono (fun _ _ _ h => h) ?_
  rintro addr p ⟨haddr, -, -, -, hserved, -⟩
  obtain ⟨p3, p5, hcall, -, -, h2⟩ := hserved.call
  cases hcall
  exact ⟨haddr, h2.trans (Cpu.reg_setReg_self (by decide)),
    hserved.reg 16 (by decide) (by decide)⟩

end Ko6.Hal.Mips
