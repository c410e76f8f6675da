import Ko6.Hal.RiscvIsa

set_option autoImplicit false

/-!
# Hal: the entry into the kernel on the RISC-V

`kentry` of `entry.S` with its two handlers.  There is no register for the kernel: `kentry`
puts `t0` and `t1` in two words below the stack pointer of the interrupted program, from where
the interrupt handler takes them to its frame.
-/

namespace Ko6.Hal.Riscv

open Lib

/-! ## The code -/

variable (L : EntrySymbols)

/-- From `kentry` to `syscall_handler`; the labels are places of `entry_text`. -/
def kentry : List Instr :=
  [ .addi sp sp (-8),
    .sw t0 0 sp,
    .sw t1 4 sp,
    .csrr t0 .mcause,
    .li t1 8,
    .beq t0 t1 9,
    .srli t0 t0 31,
    .bnez t0 30,
    .j L.kpanic ]

def syscall_handler : List Instr :=
  [ .addi sp sp 8,
    .li t0 L.ThreadCurrent,
    .lw t0 0 t0,
    .lw t0 0 t0,
    .sw sp (-4) t0,
    .addi sp t0 (-3 * 4),
    .csrr t0 .mepc,
    .addi t0 t0 4,
    .sw ra (1 * 4) sp,
    .sw t0 (0 * 4) sp,
    .li t0 L.SyscallVector,
    .andi t1 a4 (SYSCALL_NR - 1),
    .slli t1 t1 2,
    .add t1 t0 t1,
    .lw t1 0 t1,
    .jalr t1,
    .lw t0 (0 * 4) sp,
    .lw ra (1 * 4) sp,
    .csrw .mepc t0,
    .lw sp (2 * 4) sp,
    .mret ]

/-- `irq_handler`, `irq_user` and, from its place 8 on, `irq_kernel`. -/
def irq_handler : List Instr :=
  [ .csrr t0 .mstatus,
    .srli t0 t0 11,
    .andi t0 t0 3,
    .mv t1 sp,
    .bnez t0 38,
    .li t0 L.ThreadCurrent,
    .lw t0 0 t0,
    .lw sp 0 t0,
    .addi t1 t1 8,
    .addi sp sp (-17 * 4),
    .sw t1 (16 * 4) sp,
    .addi t1 t1 (-8),
    .lw t0 0 t1,
    .lw t1 4 t1,
    .sw ra (15 * 4) sp,
    .sw a0 (14 * 4) sp,
    .sw a1 (13 * 4) sp,
    .sw a2 (12 * 4) sp,
    .sw a3 (11 * 4) sp,
    .sw a4 (10 * 4) sp,
    .sw a5 (9 * 4) sp,
    .sw a6 (8 * 4) sp,
    .sw a7 (7 * 4) sp,
    .sw t0 (6 * 4) sp,
    .sw t1 (5 * 4) sp,
    .sw t2 (4 * 4) sp,
    .sw t3 (3 * 4) sp,
    .sw t4 (2 * 4) sp,
    .sw t5 (1 * 4) sp,
    .sw t6 (0 * 4) sp,
    .csrr a0 .mcause,
    .jal L.isrcall,
    .lw ra (15 * 4) sp,
    .lw a0 (14 * 4) sp,
    .lw a1 (13 * 4) sp,
    .lw a2 (12 * 4) sp,
    .lw a3 (11 * 4) sp,
    .lw a4 (10 * 4) sp,
    .lw a5 (9 * 4) sp,
    .lw a6 (8 * 4) sp,
    .lw a7 (7 * 4) sp,
    .lw t0 (6 * 4) sp,
    .lw t1 (5 * 4) sp,
    .lw t2 (4 * 4) sp,
    .lw t3 (3 * 4) sp,
    .lw t4 (2 * 4) sp,
    .lw t5 (1 * 4) sp,
    .lw t6 (0 * 4) sp,
    .lw sp (16 * 4) sp,
    .mret ]

/-- The text from `kentry` to its end. -/
def entry_text : List Instr := kentry L ++ syscall_handler L ++ irq_handler L

/-! ## The calling convention -/

/-- The registers that a function keeps, `gp` and `tp` among them, which none changes. -/
def kept : List Reg := [sp, 3, 4, s0, s1, s2, s3, s4, s5, s6, s7, s8, s9, s10, s11]

/-- What a function keeps for its caller: those registers, the status and the return address
of the exception, and the words `Held` of the memory. -/
structure Keeps {C : Type} (Held : Word → Prop) (p p' : Cpu × Mem C) : Prop where
  reg : ∀ r ∈ kept, p'.1.reg r = p.1.reg r
  status : p'.1.csr .mstatus = p.1.csr .mstatus
  epc : p'.1.csr .mepc = p.1.csr .mepc
  mem : ∀ a, Held a → p'.2.mem a = p.2.mem a

/-! ## Interrupts -/

/-- The registers saved and where, in the order of the code. -/
def saved : List (Reg × Word) :=
  [(ra, 15 * 4), (a0, 14 * 4), (a1, 13 * 4), (a2, 12 * 4), (a3, 11 * 4), (a4, 10 * 4),
    (a5, 9 * 4), (a6, 8 * 4), (a7, 7 * 4), (t0, 6 * 4), (t1, 5 * 4), (t2, 4 * 4), (t3, 3 * 4),
    (t4, 2 * 4), (t5, 1 * 4), (t6, 0 * 4)]

/-- The words that `kentry` writes, below the stack pointer of the program. -/
def Scratch (s : Cpu) (a : Word) : Prop := a = s.reg sp + (-8) ∨ a = s.reg sp + (-8) + 4

/-- The previous mode, MPP: 0 for a program in user mode. -/
def previousMode (s : Cpu) : Word := (s.csr .mstatus >>> 11) &&& 3

/-- Where the kernel's stack begins: that of the current thread, or, in the kernel already,
the stack in use below the two words. -/
def irqTop {C : Type} (s : Cpu) (b : Mem C) : Word :=
  if previousMode s = 0 then b.mem (b.mem L.ThreadCurrent) else s.reg sp + (-8)

/-- The words that the interrupt handler writes. -/
def IrqFrame (top a : Word) : Prop :=
  ∃ p ∈ (sp, (16 * 4 : Word)) :: saved, a = top + (-17 * 4) + p.2

/-- What the interrupted program finds again. -/
structure Undisturbed (s s' : Cpu) : Prop where
  reg : ∀ r, s'.reg r = s.reg r
  status : s'.csr .mstatus = mretStatus (s.csr .mstatus)

theorem saved_ne : ∀ p ∈ saved, p.1 ≠ sp ∧ p.1 ≠ 0 ∧ (16 * 4 : Word) ≠ p.2 :=
  Asm.forall_mem_of_all (by decide)

theorem t0_ne : t0 ≠ 0 := by decide

/-- The registers, by how they come back. -/
theorem reg_cases : ∀ r : Reg, r = 0 ∨ r = sp ∨
    r ≠ sp ∧ r ∈ kept ∧ r ∉ saved.map Prod.fst ∧ r ≠ a0 ∨ r ∈ saved.map Prod.fst := by
  decide

section
variable {C : Type} [DecidableEq C] {c : C} {callee : Word → Cpu × Mem C → Cpu × Mem C → Prop}
  {L} {s u : Cpu} {b : Mem C} {top : Word} {Held : Word → Prop}

theorem irq_plain {i : Instr} (h : i ∈ saved.map (fun p => Instr.sw p.1 p.2 sp) ++
    saved.map (fun p => Instr.lw p.1 p.2 sp)) : Asm.Plain (step c) i := by
  refine plain_of_isPlain ?_
  revert i
  decide

/-- From the stores of the frame on: the registers are saved, `isrcall` runs, and they are
taken back. -/
theorem irq_frame_leads (hsp : u.reg sp = top + (-17 * 4))
    (hreg : ∀ r, r ≠ sp → u.reg r = s.reg r) (hcsr : u.csr = s.csr)
    (hprev : b.mem (top + (-17 * 4) + 16 * 4) = s.reg sp)
    (hcall : ∀ p p', callee L.isrcall p p' → Keeps Held p p')
    (hheld : ∀ a, IrqFrame top a → Held a) :
    Asm.Leads (step c) callee (entry_text L)
      (fun addr p => addr = s.csr .mepc ∧ Undisturbed s p.1 ∧
        ∀ a, Held a → ¬ IrqFrame top a → p.2.mem a = b.mem a) 44 (u, b) := by
  obtain ⟨b1, hb1, hsaved, hother⟩ := block_sw (c := c) (b := b) (s := u) sp saved (by decide)
  rw [hsp] at hsaved hother
  refine .block (saved.map fun p => .sw p.1 p.2 sp)
    (fun i hi => irq_plain (List.mem_append_left _ hi)) ⟨(entry_text L).drop 60, rfl⟩ ?_
  rw [hb1]
  have hprev1 : b1.mem (top + (-17 * 4) + 16 * 4) = s.reg sp :=
    (hother _ fun p hp e => (saved_ne p hp).2.2 (add_left_cancel e)).trans hprev
  -- the call
  obtain ⟨u1, hu1⟩ : ∃ u1, u1 = u.setReg a0 (u.csr .mcause) := ⟨_, rfl⟩
  have hsp1 : u1.reg sp = top + (-17 * 4) := by
    rw [hu1, Cpu.reg_setReg_of_ne (by decide), hsp]
  refine .next rfl (?_ : _ = ((u1, b1), Asm.Next.next)) (.call rfl rfl ?_)
  · rw [hu1]
    rfl
  rintro ⟨u2, b2⟩ hp2
  have hkeeps : Keeps Held (u1, b1) (u2, b2) := hcall _ _ hp2
  have hsp2 : u2.reg sp = top + (-17 * 4) := (hkeeps.reg sp (by decide)).trans hsp1
  have hsaved2 : ∀ p ∈ saved, b2.mem (top + (-17 * 4) + p.2) = u.reg p.1 := fun p hp =>
    (hkeeps.mem _ (hheld _ ⟨p, List.mem_cons_of_mem _ hp, rfl⟩)).trans (hsaved p hp)
  have hprev2 : b2.mem (top + (-17 * 4) + 16 * 4) = s.reg sp :=
    (hkeeps.mem _ (hheld _ ⟨_, List.mem_cons_self, rfl⟩)).trans hprev1
  -- the registers come back
  obtain ⟨u3, hu3, hback, hreg3, hcsr3⟩ := block_lw (c := c) (b := b2) (s := u2) sp saved
    (by decide) fun p hp => ⟨(saved_ne p hp).1, (saved_ne p hp).2.1⟩
  rw [hsp2] at hback
  refine .block (saved.map fun p => .lw p.1 p.2 sp)
    (fun i hi => irq_plain (List.mem_append_right _ hi)) ⟨(entry_text L).drop 78, rfl⟩ ?_
  rw [hu3]
  have hsp3 : u3.reg sp = top + (-17 * 4) :=
    (hreg3 sp fun p hp => (saved_ne p hp).1.symm).trans hsp2
  have hcsr1 : u1.csr = s.csr := by
    rw [hu1]
    exact hcsr
  refine .next rfl rfl (.leave rfl rfl ⟨?_, ⟨?_, ?_⟩, ?_⟩)
  · change u3.csr .mepc = s.csr .mepc
    rw [hcsr3, hkeeps.epc, hcsr1]
  · intro r
    change (u3.setReg sp (b2.mem (u3.reg sp + 16 * 4))).reg r = s.reg r
    rcases reg_cases r with rfl | rfl | ⟨hne, hkept, hnot, ha0⟩ | hmem
    · rw [Cpu.reg_zero, Cpu.reg_zero]
    · rw [Cpu.reg_setReg_self (by decide), hsp3, hprev2]
    · rw [Cpu.reg_setReg_of_ne hne, hreg3 r fun p hp e => hnot (List.mem_map.mpr ⟨p, hp, e.symm⟩),
        hkeeps.reg r hkept, hu1, Cpu.reg_setReg_of_ne ha0, hreg r hne]
    · obtain ⟨p, hp, rfl⟩ := List.mem_map.mp hmem
      have hne := (saved_ne p hp).1
      rw [Cpu.reg_setReg_of_ne hne, hback p hp, hsaved2 p hp, hreg _ hne]
  · change mretStatus (u3.csr .mstatus) = mretStatus (s.csr .mstatus)
    rw [hcsr3, hkeeps.status, hcsr1]
  · intro a ha hnot
    have hb1 : b1.mem a = b.mem a := hother a fun p hp e =>
      hnot ⟨p, List.mem_cons_of_mem _ hp, e⟩
    exact (hkeeps.mem a ha).trans hb1

/-- From `irq_kernel` on: `t1` points to the two words of `kentry`. -/
theorem irq_kernel_leads (hsp : u.reg sp = top) (ht1 : u.reg t1 = s.reg sp + (-8))
    (hreg : ∀ r, r ≠ sp → r ≠ t0 → r ≠ t1 → u.reg r = s.reg r) (hcsr : u.csr = s.csr)
    (hx0 : b.mem (s.reg sp + (-8)) = s.reg t0) (hx1 : b.mem (s.reg sp + (-8) + 4) = s.reg t1)
    (hapart : ∀ a, IrqFrame top a → ¬ Scratch s a)
    (hcall : ∀ p p', callee L.isrcall p p' → Keeps Held p p')
    (hheld : ∀ a, IrqFrame top a → Held a) :
    Asm.Leads (step c) callee (entry_text L)
      (fun addr p => addr = s.csr .mepc ∧ Undisturbed s p.1 ∧
        ∀ a, Held a → ¬ IrqFrame top a → p.2.mem a = b.mem a) 38 (u, b) := by
  have hprev : s.reg sp + (-8) + 8 = s.reg sp := by
    rw [add_assoc]
    exact add_zero _
  obtain ⟨b1, hb1⟩ : ∃ b1, b1 = b.store (top + (-17 * 4) + 16 * 4) (s.reg sp) := ⟨_, rfl⟩
  have hmem : ∀ a, ¬ IrqFrame top a → b1.mem a = b.mem a := by
    intro a ha
    have hne : a ≠ top + (-17 * 4) + 16 * 4 := by
      rintro rfl
      exact ha ⟨_, List.mem_cons_self, rfl⟩
    rw [hb1, Bus.store_mem, Function.update_of_ne hne]
  have hscratch : ∀ a, Scratch s a → b1.mem a = b.mem a := fun a ha =>
    hmem a fun hframe => hapart a hframe ha
  obtain ⟨u1, hu1⟩ : ∃ u1, u1 = (u.setReg t1 (s.reg sp)).setReg sp (top + (-17 * 4)) := ⟨_, rfl⟩
  obtain ⟨u2, hu2⟩ : ∃ u2, u2 = ((u1.setReg t1 (s.reg sp + (-8))).setReg t0 (s.reg t0)).setReg t1
      (s.reg t1) := ⟨_, rfl⟩
  have hsp1 : u1.reg sp = top + (-17 * 4) := hu1 ▸ Cpu.reg_setReg_self (by decide)
  have ht11 : u1.reg t1 = s.reg sp := by
    rw [hu1, Cpu.reg_setReg_of_ne (by decide), Cpu.reg_setReg_self (by decide)]
  refine .next rfl (?_ : _ = ((u.setReg t1 (s.reg sp), b), Asm.Next.next))
    (.next rfl (?_ : _ = ((u1, b), Asm.Next.next)) (.next rfl (?_ : _ = ((u1, b1), Asm.Next.next))
      (.next rfl (?_ : _ = ((u1.setReg t1 (s.reg sp + (-8)), b1), Asm.Next.next))
        (.next rfl (?_ : _ = (((u1.setReg t1 (s.reg sp + (-8))).setReg t0 (s.reg t0), b1),
          Asm.Next.next)) (.next rfl (?_ : _ = ((u2, b1), Asm.Next.next)) ?_)))))
  · simp only [step, exec, ht1, hprev]
  · rw [hu1, ← hsp]
    simp only [step, exec]
    rw [Cpu.reg_setReg_of_ne (by decide)]
  · simp only [step, exec, hsp1, ht11, hb1]
  · simp only [step, exec, ht11]
  · simp only [step, exec]
    rw [Cpu.reg_setReg_self (by decide), add_zero, hscratch _ (.inl rfl), hx0]
  · simp only [step, exec]
    rw [Cpu.reg_setReg_of_ne (by decide), Cpu.reg_setReg_self (by decide),
      hscratch _ (.inr rfl), hx1, hu2]
  have hsp2 : u2.reg sp = top + (-17 * 4) := by
    rw [hu2, Cpu.reg_setReg_of_ne (by decide), Cpu.reg_setReg_of_ne (by decide),
      Cpu.reg_setReg_of_ne (by decide), hsp1]
  have hreg2 : ∀ r, r ≠ sp → u2.reg r = s.reg r := by
    intro r hr
    by_cases h1 : r = t1
    · rw [h1, hu2, Cpu.reg_setReg_self (by decide)]
    by_cases h0 : r = t0
    · rw [h0, hu2, Cpu.reg_setReg_of_ne (by decide), Cpu.reg_setReg_self (by decide)]
    rw [hu2, Cpu.reg_setReg_of_ne h1, Cpu.reg_setReg_of_ne h0, Cpu.reg_setReg_of_ne h1, hu1,
      Cpu.reg_setReg_of_ne hr, Cpu.reg_setReg_of_ne h1, hreg r hr h0 h1]
  have hcsr2 : u2.csr = s.csr := by
    rw [hu2, hu1]
    exact hcsr
  have hprev2 : b1.mem (top + (-17 * 4) + 16 * 4) = s.reg sp := by
    rw [hb1, Bus.store_mem, Function.update_self]
  refine (irq_frame_leads hsp2 hreg2 hcsr2 hprev2 hcall hheld).mono (fun _ _ _ h => h) ?_
  rintro addr p ⟨haddr, hsame, hother⟩
  exact ⟨haddr, hsame, fun a ha hnot => (hother a ha hnot).trans (hmem a hnot)⟩

/-- The branch of `irq_handler` on the previous mode in `t0`. -/
theorem irq_branch_leads (hmode : u.reg t0 = previousMode s) (hsp : u.reg sp = s.reg sp + (-8))
    (ht1 : u.reg t1 = s.reg sp + (-8))
    (hreg : ∀ r, r ≠ sp → r ≠ t0 → r ≠ t1 → u.reg r = s.reg r) (hcsr : u.csr = s.csr)
    (hx0 : b.mem (s.reg sp + (-8)) = s.reg t0) (hx1 : b.mem (s.reg sp + (-8) + 4) = s.reg t1)
    (hapart : ∀ a, IrqFrame (irqTop L s b) a → ¬ Scratch s a)
    (hcall : ∀ p p', callee L.isrcall p p' → Keeps Held p p')
    (hheld : ∀ a, IrqFrame (irqTop L s b) a → Held a) :
    Asm.Leads (step c) callee (entry_text L)
      (fun addr p => addr = s.csr .mepc ∧ Undisturbed s p.1 ∧
        ∀ a, Held a → ¬ IrqFrame (irqTop L s b) a → p.2.mem a = b.mem a) 34 (u, b) := by
  by_cases huser : previousMode s = 0
  · have htop : irqTop L s b = b.mem (b.mem L.ThreadCurrent) := if_pos huser
    rw [htop] at hapart hheld ⊢
    obtain ⟨u1, hu1⟩ : ∃ u1, u1 = ((u.setReg t0 L.ThreadCurrent).setReg t0
        (b.mem L.ThreadCurrent)).setReg sp (b.mem (b.mem L.ThreadCurrent)) := ⟨_, rfl⟩
    refine .next rfl (?_ : _ = ((u, b), Asm.Next.next)) (.next rfl rfl (.next rfl rfl
      (.next rfl (?_ : _ = ((u1, b), Asm.Next.next)) (irq_kernel_leads ?_ ?_ ?_ ?_ hx0 hx1 hapart
        hcall hheld))))
    · simp only [step, exec, hmode, huser, ne_eq, not_true_eq_false, if_false]
    · rw [hu1]
      simp only [step, exec, Cpu.reg_setReg_self t0_ne, add_zero]
    · exact hu1 ▸ Cpu.reg_setReg_self (by decide)
    · rw [hu1, Cpu.reg_setReg_of_ne (by decide), Cpu.reg_setReg_of_ne (by decide),
        Cpu.reg_setReg_of_ne (by decide), ht1]
    · intro r hrsp h0 h1
      rw [hu1, Cpu.reg_setReg_of_ne hrsp, Cpu.reg_setReg_of_ne h0, Cpu.reg_setReg_of_ne h0,
        hreg r hrsp h0 h1]
    · rw [hu1]
      exact hcsr
  · have htop : irqTop L s b = s.reg sp + (-8) := if_neg huser
    rw [htop] at hapart hheld ⊢
    refine .goto rfl (?_ : _ = ((u, b), Asm.Next.goto 38))
      (irq_kernel_leads hsp ht1 hreg hcsr hx0 hx1 hapart hcall hheld)
    simp only [step, exec, hmode, ne_eq, huser, not_false_eq_true, if_true]

omit [DecidableEq C] in
/-- The stores of `kentry` change the two words only. -/
theorem store_scratch {a v w : Word} (h : ¬ Scratch s a) :
    ((b.store (s.reg sp + (-8)) v).store (s.reg sp + (-8) + 4) w).mem a = b.mem a := by
  rw [Bus.store_mem, Function.update_of_ne fun e => h (.inr e), Bus.store_mem,
    Function.update_of_ne fun e => h (.inl e)]

/-- In the kernel the frame of the handler is below the two words of `kentry`. -/
theorem kernel_apart {a : Word} (h : IrqFrame (s.reg sp + (-8)) a) : ¬ Scratch s a := by
  obtain ⟨p, hp, rfl⟩ := h
  have hne : ∀ p ∈ (sp, (16 * 4 : Word)) :: saved,
      (-17 * 4 : Word) + p.2 ≠ 0 ∧ (-17 * 4 : Word) + p.2 ≠ 4 := Asm.forall_mem_of_all (by decide)
  rw [Scratch, add_assoc]
  rintro (hx | hx)
  · exact (hne p hp).1 (add_eq_left.mp hx)
  · exact (hne p hp).2 (add_left_cancel hx)

/-- An interrupt is not noticed: from `kentry` the kernel comes back to the interrupted program
with every register as it was, in its status, and with the words held by `isrcall` as they
were, except those that the handler has used on the stacks.  For a program in user mode the two
words below its stack pointer are none of the kernel's. -/
theorem interrupt_undisturbed (hcause : s.csr .mcause >>> 31 ≠ 0)
    (hstack : previousMode s = 0 → ¬ Scratch s L.ThreadCurrent ∧
      ¬ Scratch s (b.mem L.ThreadCurrent) ∧
      ∀ a, IrqFrame (b.mem (b.mem L.ThreadCurrent)) a → ¬ Scratch s a)
    (hcall : ∀ p p', callee L.isrcall p p' → Keeps Held p p')
    (hheld : ∀ a, IrqFrame (irqTop L s b) a → Held a) :
    Asm.Leads (step c) callee (entry_text L)
      (fun addr p => addr = s.csr .mepc ∧ Undisturbed s p.1 ∧
        ∀ a, Held a → ¬ IrqFrame (irqTop L s b) a → ¬ Scratch s a → p.2.mem a = b.mem a)
      0 (s, b) := by
  obtain ⟨b1, hb1⟩ : ∃ b1, b1 = (b.store (s.reg sp + (-8)) (s.reg t0)).store
      (s.reg sp + (-8) + 4) (s.reg t1) := ⟨_, rfl⟩
  have hmem : ∀ a, ¬ Scratch s a → b1.mem a = b.mem a := fun a ha => hb1 ▸ store_scratch ha
  have hne4 : s.reg sp + (-8) ≠ s.reg sp + (-8) + 4 := fun e =>
    absurd (left_eq_add.mp e) (by decide)
  have hx0 : b1.mem (s.reg sp + (-8)) = s.reg t0 := by
    rw [hb1, Bus.store_mem, Function.update_of_ne hne4, Bus.store_mem, Function.update_self]
  have hx1 : b1.mem (s.reg sp + (-8) + 4) = s.reg t1 := by
    rw [hb1, Bus.store_mem, Function.update_self]
  have htop : irqTop L s b1 = irqTop L s b := by
    by_cases huser : previousMode s = 0
    · obtain ⟨hcur, hthread, -⟩ := hstack huser
      rw [irqTop, irqTop, if_pos huser, if_pos huser, hmem _ hcur, hmem _ hthread]
    · rw [irqTop, irqTop, if_neg huser, if_neg huser]
  have hapart : ∀ a, IrqFrame (irqTop L s b1) a → ¬ Scratch s a := by
    intro a ha
    rw [htop] at ha
    by_cases huser : previousMode s = 0
    · rw [irqTop, if_pos huser] at ha
      exact (hstack huser).2.2 a ha
    · rw [irqTop, if_neg huser] at ha
      exact kernel_apart ha
  have h8 : s.csr .mcause ≠ 8 := by
    intro h
    rw [h] at hcause
    exact hcause rfl
  obtain ⟨u1, hu1⟩ : ∃ u1, u1 = ((s.setReg sp (s.reg sp + (-8))).setReg t0
      (s.csr .mcause)).setReg t1 8 := ⟨_, rfl⟩
  obtain ⟨u2, hu2⟩ : ∃ u2, u2 = u1.setReg t0 (s.csr .mcause >>> 31) := ⟨_, rfl⟩
  obtain ⟨u3, hu3⟩ : ∃ u3, u3 = ((u2.setReg t0 (s.csr .mstatus)).setReg t0
      (s.csr .mstatus >>> 11)).setReg t0 (previousMode s) := ⟨_, rfl⟩
  have h0 : u1.reg t0 = s.csr .mcause := by
    rw [hu1, Cpu.reg_setReg_of_ne (by decide), Cpu.reg_setReg_self (by decide)]
  have h1 : u1.reg t1 = 8 := hu1 ▸ Cpu.reg_setReg_self (by decide)
  have hcsr2 : u2.csr = s.csr := by
    rw [hu2, hu1]
    rfl
  have hcsr3 : u3.csr = s.csr := by
    rw [hu3]
    exact hcsr2
  have hsp3 : u3.reg sp = s.reg sp + (-8) := by
    rw [hu3, Cpu.reg_setReg_of_ne (by decide), Cpu.reg_setReg_of_ne (by decide),
      Cpu.reg_setReg_of_ne (by decide), hu2, Cpu.reg_setReg_of_ne (by decide), hu1,
      Cpu.reg_setReg_of_ne (by decide), Cpu.reg_setReg_of_ne (by decide),
      Cpu.reg_setReg_self (by decide)]
  have hreg3 : ∀ r, r ≠ sp → r ≠ t0 → r ≠ t1 → u3.reg r = s.reg r := by
    intro r hrsp hr0 hr1
    rw [hu3, Cpu.reg_setReg_of_ne hr0, Cpu.reg_setReg_of_ne hr0, Cpu.reg_setReg_of_ne hr0, hu2,
      Cpu.reg_setReg_of_ne hr0, hu1, Cpu.reg_setReg_of_ne hr1, Cpu.reg_setReg_of_ne hr0,
      Cpu.reg_setReg_of_ne hrsp]
  have hlead : Asm.Leads (step c) callee (entry_text L)
      (fun addr p => addr = s.csr .mepc ∧ Undisturbed s p.1 ∧
        ∀ a, Held a → ¬ IrqFrame (irqTop L s b1) a → p.2.mem a = b1.mem a) 34
      (u3.setReg t1 (u3.reg sp), b1) := by
    refine irq_branch_leads ?_ ?_ ?_ ?_ hcsr3 hx0 hx1 hapart hcall (htop.symm ▸ hheld)
    · rw [Cpu.reg_setReg_of_ne (by decide), hu3, Cpu.reg_setReg_self (by decide)]
    · rw [Cpu.reg_setReg_of_ne (by decide), hsp3]
    · rw [Cpu.reg_setReg_self (by decide), hsp3]
    · intro r hrsp hr0 hr1
      rw [Cpu.reg_setReg_of_ne hr1, hreg3 r hrsp hr0 hr1]
  rw [htop] at hlead
  refine .next rfl rfl (.next rfl
    (?_ : _ = ((s.setReg sp (s.reg sp + (-8)), b.store (s.reg sp + (-8)) (s.reg t0)),
      Asm.Next.next))
    (.next rfl (?_ : _ = ((s.setReg sp (s.reg sp + (-8)), b1), Asm.Next.next))
      (.next rfl rfl (.next rfl (?_ : _ = ((u1, b1), Asm.Next.next))
        (.next rfl (?_ : _ = ((u1, b1), Asm.Next.next))
          (.next rfl (?_ : _ = ((u2, b1), Asm.Next.next))
            (.goto rfl (?_ : _ = ((u2, b1), Asm.Next.goto 30))
              (.next rfl rfl (.next rfl rfl (.next rfl (?_ : _ = ((u3, b1), Asm.Next.next))
                (.next rfl rfl (hlead.mono (fun _ _ _ h => h) ?_))))))))))))
  · simp only [step, exec]
    rw [Cpu.reg_setReg_self (by decide), Cpu.reg_setReg_of_ne (by decide), add_zero]
  · simp only [step, exec]
    rw [Cpu.reg_setReg_self (by decide), Cpu.reg_setReg_of_ne (by decide), hb1]
  · rw [hu1]
    rfl
  · simp only [step, exec, h0, h1, h8, if_false]
  · rw [hu2, ← h0]
    rfl
  · have h31 : u2.reg t0 = s.csr .mcause >>> 31 := hu2 ▸ Cpu.reg_setReg_self (by decide)
    simp only [step, exec, h31, ne_eq, hcause, not_false_eq_true, if_true]
  · rw [hu3, previousMode, ← hcsr2]
    simp only [step, exec, Cpu.reg_setReg_self t0_ne]
  · rintro addr p ⟨haddr, hsame, hother⟩
    exact ⟨haddr, hsame, fun a ha hnot hscratch =>
      (hother a ha hnot).trans (hmem a hscratch)⟩

end

/-- A program in user mode, interrupted, with its registers at 0x8000. -/
def interrupted : Cpu where
  gpr _ := 0x8000
  csr k := match k with
    | .mstatus => 0x80
    | .mepc => 0x400000
    | .mcause => 0x80000007

/-- The addresses of a small kernel. -/
def smallKernel : EntrySymbols where
  ThreadCurrent := 0x1000
  SyscallVector := 0x2000
  isrcall := 0x3000
  kpanic := 0x4000

/-- The thread at 0x5000, with its kernel's stack at 0x6000. -/
def smallMem : Mem Unit where
  mem a := if a = 0x1000 then 0x5000 else if a = 0x5000 then 0x6000 else 0
  link _ := none

/-- A function that destroys `t0`. -/
def destroys (_ : Word) (p p' : Cpu × Mem Unit) : Prop := p' = (p.1.setReg t0 7, p.2)

theorem destroys_keeps {fn : Word} {p p' : Cpu × Mem Unit} (h : destroys fn p p') :
    Keeps (fun _ => True) p p' := by
  cases h
  have hne : ∀ r ∈ kept, r ≠ t0 := Asm.forall_mem_of_all (by decide)
  exact ⟨fun r hr => Cpu.reg_setReg_of_ne (hne r hr), rfl, rfl, fun _ _ => rfl⟩

/-- The program finds `t0` again after an interrupt. -/
theorem interrupt_undisturbed_interrupted :
    Asm.Leads (step ()) destroys (entry_text smallKernel)
      (fun addr p => addr = 0x400000 ∧ p.1.reg t0 = 0x8000) 0 (interrupted, smallMem) := by
  have hcause : interrupted.csr .mcause >>> 31 ≠ 0 := by decide
  have hscratch : ∀ a : Word, a ≠ 0x7FF8 → a ≠ 0x7FFC → ¬ Scratch interrupted a := by
    rintro a h0 h4 (h | h)
    · exact h0 h
    · exact h4 h
  have hframe : ∀ a, IrqFrame (0x6000 : Word) a → ¬ Scratch interrupted a := by
    have hne : ∀ p ∈ (sp, (16 * 4 : Word)) :: saved, (0x6000 : Word) + (-17 * 4) + p.2 ≠ 0x7FF8 ∧
        (0x6000 : Word) + (-17 * 4) + p.2 ≠ 0x7FFC := Asm.forall_mem_of_all (by decide)
    rintro a ⟨p, hp, rfl⟩
    exact hscratch _ (hne p hp).1 (hne p hp).2
  have hthread : smallMem.mem smallKernel.ThreadCurrent = 0x5000 := by decide
  have hstack : smallMem.mem 0x5000 = 0x6000 := by decide
  have hcall : ∀ p p', destroys smallKernel.isrcall p p' → Keeps (fun _ => True) p p' :=
    fun _ _ h => destroys_keeps h
  refine (interrupt_undisturbed hcause ?_ hcall fun _ _ => trivial).mono (fun _ _ _ h => h) ?_
  · rw [hthread, hstack]
    exact fun _ => ⟨hscratch 0x1000 (by decide) (by decide),
      hscratch 0x5000 (by decide) (by decide), hframe⟩
  · rintro addr p ⟨haddr, hsame, -⟩
    exact ⟨haddr, hsame.reg t0⟩

/-! ## System calls -/

/-- The registers of the arguments. -/
def arguments : List Reg := [a0, a1, a2, a3, a4, a5, a6, a7]

/-- The words that the system call handler writes: the return address, `ra` and the stack
pointer of the program. -/
def SyscallFrame (top a : Word) : Prop :=
  ∃ o : Word, o ∈ ([0 * 4, 1 * 4, 2 * 4] : List Word) ∧ a = top + (-3 * 4) + o

section
variable {C : Type} [DecidableEq C] {c : C} {callee : Word → Cpu × Mem C → Cpu × Mem C → Prop}
  {L} {s u : Cpu} {b : Mem C} {Held : Word → Prop}

/-- What a service keeps for its caller: the return address of the exception is kept by the
handler. -/
structure ServiceKeeps (Held : Word → Prop) (p p' : Cpu × Mem C) : Prop where
  reg : ∀ r ∈ kept, p'.1.reg r = p.1.reg r
  status : p'.1.csr .mstatus = p.1.csr .mstatus
  mem : ∀ a, Held a → p'.2.mem a = p.2.mem a

/-- What a system call of `s` has done when the thread goes on in `p`, the service being at
`fn`: it has been called with the arguments of the thread, and its result is in `a0`. -/
structure Served (callee : Word → Cpu × Mem C → Cpu × Mem C → Prop) (fn : Word) (s : Cpu)
    (p : Cpu × Mem C) : Prop where
  call : ∃ p3 p5, callee fn p3 p5 ∧ (∀ r ∈ arguments, p3.1.reg r = s.reg r) ∧
    p.1.reg a0 = p5.1.reg a0
  reg : ∀ r ∈ kept, p.1.reg r = s.reg r
  ra : p.1.reg ra = s.reg ra
  status : p.1.csr .mstatus = mretStatus (s.csr .mstatus)

theorem kept_ne : ∀ r ∈ kept, r ≠ ra ∧ r ≠ t0 ∧ r ≠ t1 := Asm.forall_mem_of_all (by decide)

theorem arguments_ne : ∀ r ∈ arguments, r ≠ sp ∧ r ≠ t0 ∧ r ≠ t1 :=
  Asm.forall_mem_of_all (by decide)

theorem t1_ne : t1 ≠ 0 := by decide

/-- The end of the handler, behind the service. -/
theorem syscall_return_leads {base epc rav spv : Word} (hsp : u.reg sp = base)
    (hepc : b.mem (base + 0 * 4) = epc) (hra : b.mem (base + 1 * 4) = rav)
    (hspv : b.mem (base + 2 * 4) = spv) :
    Asm.Leads (step c) callee (entry_text L)
      (fun addr p => addr = epc ∧ p.1.reg ra = rav ∧ p.1.reg sp = spv ∧
        p.1.csr .mstatus = mretStatus (u.csr .mstatus) ∧
        (∀ r, r ≠ t0 → r ≠ ra → r ≠ sp → p.1.reg r = u.reg r) ∧ p.2 = b) 25 (u, b) := by
  obtain ⟨u1, hu1, hback, hreg, hcsr⟩ := block_lw (c := c) (b := b) (s := u) sp
    [(t0, 0 * 4), (ra, 1 * 4)] (by decide) (Asm.forall_mem_of_all (by decide))
  rw [hsp] at hback
  have hsp1 : u1.reg sp = base := (hreg sp (Asm.forall_mem_of_all (by decide))).trans hsp
  refine .block ([(t0, (0 * 4 : Word)), (ra, 1 * 4)].map fun p => .lw p.1 p.2 sp) (by
    intro i hi
    refine plain_of_isPlain ?_
    revert i
    decide) ⟨(entry_text L).drop 27, rfl⟩ ?_
  rw [hu1]
  refine .next rfl rfl (.next rfl rfl (.leave rfl rfl ⟨?_, ?_, ?_, ?_, ?_, rfl⟩))
  · exact (hback (t0, 0 * 4) (by decide)).trans hepc
  · change (u1.setReg sp (b.mem (u1.reg sp + 2 * 4))).reg ra = rav
    rw [Cpu.reg_setReg_of_ne (by decide)]
    exact (hback (ra, 1 * 4) (by decide)).trans hra
  · change (u1.setReg sp (b.mem (u1.reg sp + 2 * 4))).reg sp = spv
    rw [Cpu.reg_setReg_self (by decide), hsp1, hspv]
  · change mretStatus (u1.csr .mstatus) = _
    rw [hcsr]
  · intro r h0 hra' hsp'
    change (u1.setReg sp (b.mem (u1.reg sp + 2 * 4))).reg r = u.reg r
    rw [Cpu.reg_setReg_of_ne hsp']
    refine hreg r fun p hp => ?_
    simp only [List.mem_cons, List.not_mem_nil, or_false] at hp
    rcases hp with rfl | rfl <;> assumption

/-- The call of the service, with the frame on the stack already. -/
theorem syscall_call_leads {fn base epc : Word} (hsp : u.reg sp = base)
    (hargs : ∀ r ∈ arguments, u.reg r = s.reg r)
    (hregs : ∀ r ∈ kept, r ≠ sp → u.reg r = s.reg r)
    (hstatus : u.csr .mstatus = s.csr .mstatus)
    (hepc : b.mem (base + 0 * 4) = epc) (hra : b.mem (base + 1 * 4) = s.reg ra)
    (hspv : b.mem (base + 2 * 4) = s.reg sp)
    (hfn : b.mem (L.SyscallVector + ((s.reg a4 &&& (SYSCALL_NR - 1)) <<< 2)) = fn)
    (hcall : ∀ p p', callee fn p p' → ServiceKeeps Held p p')
    (hheld : ∀ o ∈ ([0 * 4, 1 * 4, 2 * 4] : List Word), Held (base + o)) :
    Asm.Leads (step c) callee (entry_text L)
      (fun addr p => addr = epc ∧ Served callee fn s p ∧ ∀ a, Held a → p.2.mem a = b.mem a)
      19 (u, b) := by
  obtain ⟨u1, hu1⟩ : ∃ u1, u1 = u.setReg t0 L.SyscallVector := ⟨_, rfl⟩
  obtain ⟨u2, hu2⟩ : ∃ u2, u2 = u1.setReg t1 (s.reg a4 &&& (SYSCALL_NR - 1)) := ⟨_, rfl⟩
  obtain ⟨u3, hu3⟩ : ∃ u3, u3 = (u2.setReg t1 ((s.reg a4 &&& (SYSCALL_NR - 1)) <<< 2)).setReg t1
      (L.SyscallVector + ((s.reg a4 &&& (SYSCALL_NR - 1)) <<< 2)) := ⟨_, rfl⟩
  obtain ⟨u4, hu4⟩ : ∃ u4, u4 = u3.setReg t1 fn := ⟨_, rfl⟩
  have hsame : ∀ r, r ≠ t0 → r ≠ t1 → u4.reg r = u.reg r := by
    intro r h0 h1
    rw [hu4, Cpu.reg_setReg_of_ne h1, hu3, Cpu.reg_setReg_of_ne h1, Cpu.reg_setReg_of_ne h1, hu2,
      Cpu.reg_setReg_of_ne h1, hu1, Cpu.reg_setReg_of_ne h0]
  have hstatus4 : u4.csr .mstatus = s.csr .mstatus := by
    rw [hu4, hu3, hu2, hu1]
    exact hstatus
  refine .next rfl (?_ : _ = ((u1, b), Asm.Next.next))
    (.next rfl (?_ : _ = ((u2, b), Asm.Next.next)) (.next rfl rfl
      (.next rfl (?_ : _ = ((u3, b), Asm.Next.next))
        (.next rfl (?_ : _ = ((u4, b), Asm.Next.next))
          (.call rfl (?_ : _ = ((u4, b), Asm.Next.call fn)) ?_)))))
  · rw [hu1]
    rfl
  · simp only [step, exec]
    rw [hu2, hu1, Cpu.reg_setReg_of_ne (by decide), hargs a4 (by decide)]
  · have h1 : u2.reg t1 = s.reg a4 &&& (SYSCALL_NR - 1) := hu2 ▸ Cpu.reg_setReg_self t1_ne
    have h0 : ∀ v, (u2.setReg t1 v).reg t0 = L.SyscallVector := by
      intro v
      rw [Cpu.reg_setReg_of_ne (by decide), hu2, Cpu.reg_setReg_of_ne (by decide), hu1,
        Cpu.reg_setReg_self t0_ne]
    simp only [step, exec, h1, h0, Cpu.reg_setReg_self t1_ne, hu3]
  · have h1 : u3.reg t1 = L.SyscallVector + ((s.reg a4 &&& (SYSCALL_NR - 1)) <<< 2) :=
      hu3 ▸ Cpu.reg_setReg_self t1_ne
    simp only [step, exec, h1, add_zero, hfn, hu4]
  · have h1 : u4.reg t1 = fn := hu4 ▸ Cpu.reg_setReg_self t1_ne
    simp only [step, exec, h1]
  rintro ⟨u5, b5⟩ hp5
  have hkeeps := hcall _ _ hp5
  have hsp4 : u4.reg sp = base := (hsame sp (by decide) (by decide)).trans hsp
  have hsp5 : u5.reg sp = base := (hkeeps.reg sp (by decide)).trans hsp4
  have hword : ∀ o ∈ ([0 * 4, 1 * 4, 2 * 4] : List Word), b5.mem (base + o) = b.mem (base + o) :=
    fun o ho => hkeeps.mem _ (hheld o ho)
  refine (syscall_return_leads hsp5 ((hword (0 * 4) (by decide)).trans hepc)
    ((hword (1 * 4) (by decide)).trans hra) ((hword (2 * 4) (by decide)).trans hspv)).mono
    (fun _ _ _ h => h) ?_
  rintro addr ⟨u6, b6⟩ ⟨haddr, hra6, hsp6, hstatus6, hreg6, hmem⟩
  obtain rfl : b6 = b5 := hmem
  refine ⟨haddr, ⟨⟨(u4, b), (u5, b6), hp5, ?_, ?_⟩, ?_, hra6, ?_⟩, hkeeps.mem⟩
  · intro r hr
    obtain ⟨-, h0, h1⟩ := arguments_ne r hr
    exact (hsame r h0 h1).trans (hargs r hr)
  · exact hreg6 a0 (by decide) (by decide) (by decide)
  · intro r hr
    by_cases hne : r = sp
    · rw [hne]
      exact hsp6
    · obtain ⟨hra', h0, h1⟩ := kept_ne r hr
      exact (hreg6 r h0 hra' hne).trans ((hkeeps.reg r hr).trans
        ((hsame r h0 h1).trans (hregs r hr hne)))
  · refine hstatus6.trans (congrArg mretStatus ?_)
    exact hkeeps.status.trans hstatus4

/-- The handler behind the first instruction: the frame goes to the kernel's stack. -/
theorem syscall_stack_leads {fn : Word} (hreg : ∀ r, r ≠ t0 → r ≠ t1 → u.reg r = s.reg r)
    (hcsr : u.csr = s.csr)
    (hfn : b.mem (L.SyscallVector + ((s.reg a4 &&& (SYSCALL_NR - 1)) <<< 2)) = fn)
    (hvector : ¬ SyscallFrame (b.mem (b.mem L.ThreadCurrent))
      (L.SyscallVector + ((s.reg a4 &&& (SYSCALL_NR - 1)) <<< 2)))
    (hcall : ∀ p p', callee fn p p' → ServiceKeeps Held p p')
    (hheld : ∀ a, SyscallFrame (b.mem (b.mem L.ThreadCurrent)) a → Held a) :
    Asm.Leads (step c) callee (entry_text L)
      (fun addr p => addr = s.csr .mepc + 4 ∧ Served callee fn s p ∧
        ∀ a, Held a → ¬ SyscallFrame (b.mem (b.mem L.ThreadCurrent)) a → p.2.mem a = b.mem a)
      10 (u, b) := by
  obtain ⟨top, htop⟩ : ∃ top, top = b.mem (b.mem L.ThreadCurrent) := ⟨_, rfl⟩
  rw [← htop] at hvector hheld ⊢
  have htop4 : top + (-4) = top + (-3 * 4) + 2 * 4 := by
    rw [add_assoc]
    rfl
  obtain ⟨u1, hu1⟩ : ∃ u1, u1 = ((u.setReg t0 L.ThreadCurrent).setReg t0
      (b.mem L.ThreadCurrent)).setReg t0 top := ⟨_, rfl⟩
  obtain ⟨u2, hu2⟩ : ∃ u2, u2 = ((u1.setReg sp (top + (-3 * 4))).setReg t0 (s.csr .mepc)).setReg t0
      (s.csr .mepc + 4) := ⟨_, rfl⟩
  obtain ⟨b1, hb1⟩ : ∃ b1, b1 = b.store (top + (-4)) (s.reg sp) := ⟨_, rfl⟩
  have hsame : ∀ r, r ≠ sp → r ≠ t0 → r ≠ t1 → u2.reg r = s.reg r := by
    intro r hr h0 h1
    rw [hu2, Cpu.reg_setReg_of_ne h0, Cpu.reg_setReg_of_ne h0, Cpu.reg_setReg_of_ne hr, hu1,
      Cpu.reg_setReg_of_ne h0, Cpu.reg_setReg_of_ne h0, Cpu.reg_setReg_of_ne h0, hreg r h0 h1]
  have h0 : u1.reg t0 = top := hu1 ▸ Cpu.reg_setReg_self t0_ne
  have hcsr1 : u1.csr = s.csr := by
    rw [hu1]
    exact hcsr
  have hsp1 : u1.reg sp = s.reg sp := by
    rw [hu1, Cpu.reg_setReg_of_ne (by decide), Cpu.reg_setReg_of_ne (by decide),
      Cpu.reg_setReg_of_ne (by decide), hreg sp (by decide) (by decide)]
  have hsp2 : u2.reg sp = top + (-3 * 4) := by
    rw [hu2, Cpu.reg_setReg_of_ne (by decide), Cpu.reg_setReg_of_ne (by decide),
      Cpu.reg_setReg_self (by decide)]
  have h02 : u2.reg t0 = s.csr .mepc + 4 := hu2 ▸ Cpu.reg_setReg_self t0_ne
  have hcsr2 : u2.csr = s.csr := by
    rw [hu2]
    exact hcsr1
  obtain ⟨b2, hb2, hsaved, hother⟩ := block_sw (c := c) (b := b1) (s := u2) sp
    [(ra, 1 * 4), (t0, 0 * 4)] (by decide)
  rw [hsp2] at hsaved hother
  have hmem : ∀ a, ¬ SyscallFrame top a → b2.mem a = b.mem a := by
    intro a ha
    have hne : a ≠ top + (-4) := by
      rintro rfl
      exact ha ⟨2 * 4, by decide, htop4⟩
    have hout : b2.mem a = b1.mem a := by
      refine hother a fun p hp e => ha ⟨p.2, ?_, e⟩
      have hoffset : ∀ p ∈ ([(ra, 1 * 4), (t0, 0 * 4)] : List (Reg × Word)),
          p.2 ∈ ([0 * 4, 1 * 4, 2 * 4] : List Word) := Asm.forall_mem_of_all (by decide)
      exact hoffset p hp
    rw [hout, hb1, Bus.store_mem, Function.update_of_ne hne]
  have hspv : b2.mem (top + (-3 * 4) + 2 * 4) = s.reg sp := by
    have hout : b2.mem (top + (-3 * 4) + 2 * 4) = b1.mem (top + (-3 * 4) + 2 * 4) := by
      refine hother _ fun p hp e => ?_
      have hne : ∀ p ∈ ([(ra, 1 * 4), (t0, 0 * 4)] : List (Reg × Word)), (2 * 4 : Word) ≠ p.2 :=
        Asm.forall_mem_of_all (by decide)
      exact hne p hp (add_left_cancel e)
    rw [hout, hb1, ← htop4, Bus.store_mem, Function.update_self]
  refine .next rfl rfl (.next rfl rfl (.next rfl (?_ : _ = ((u1, b), Asm.Next.next))
    (.next rfl (?_ : _ = ((u1, b1), Asm.Next.next))
      (.next rfl (?_ : _ = ((u1.setReg sp (top + (-3 * 4)), b1), Asm.Next.next))
        (.next rfl (?_ : _ = (((u1.setReg sp (top + (-3 * 4))).setReg t0 (s.csr .mepc), b1),
          Asm.Next.next)) (.next rfl (?_ : _ = ((u2, b1), Asm.Next.next))
            (.block ([(ra, (1 * 4 : Word)), (t0, 0 * 4)].map fun p => .sw p.1 p.2 sp) ?_
              ⟨(entry_text L).drop 19, rfl⟩ ?_)))))))
  · simp only [step, exec, Cpu.reg_setReg_self t0_ne, add_zero, hu1, htop]
  · simp only [step, exec, h0, hsp1, hb1]
  · simp only [step, exec, h0]
  · simp only [step, exec, Cpu.setReg_csr, hcsr1]
  · simp only [step, exec, Cpu.reg_setReg_self t0_ne, hu2]
  · intro i hi
    refine plain_of_isPlain ?_
    revert i
    decide
  rw [hb2]
  have hargs : ∀ r ∈ arguments, u2.reg r = s.reg r := by
    intro r hr
    obtain ⟨hne, h0, h1⟩ := arguments_ne r hr
    exact hsame r hne h0 h1
  have hregs : ∀ r ∈ kept, r ≠ sp → u2.reg r = s.reg r := by
    intro r hr hne
    obtain ⟨-, h0, h1⟩ := kept_ne r hr
    exact hsame r hne h0 h1
  refine (syscall_call_leads hsp2 hargs hregs (congrArg (· .mstatus) hcsr2)
    ((hsaved (t0, 0 * 4) (by decide)).trans h02)
    ((hsaved (ra, 1 * 4) (by decide)).trans (hsame ra (by decide) (by decide) (by decide)))
    hspv ((hmem _ hvector).trans hfn) hcall fun o ho => hheld _ ⟨o, ho, rfl⟩).mono
    (fun _ _ _ h => h) ?_
  rintro addr p ⟨haddr, hserved, hkept⟩
  exact ⟨haddr, hserved, fun a ha hnot => (hkept a ha).trans (hmem a hnot)⟩

/-- A system call runs its service: from `kentry` the kernel comes back behind the instruction
of the call, on the stack of the program and in its status, with the service's result in `a0`,
the registers of the calling convention as they were, and the words held by the service as they
were, except those that the entry has used on the stacks. -/
theorem ecall_served {fn : Word} (hcause : s.csr .mcause = 8)
    (hcurrent : ¬ Scratch s L.ThreadCurrent) (hthread : ¬ Scratch s (b.mem L.ThreadCurrent))
    (hentry : ¬ Scratch s (L.SyscallVector + ((s.reg a4 &&& (SYSCALL_NR - 1)) <<< 2)))
    (hfn : b.mem (L.SyscallVector + ((s.reg a4 &&& (SYSCALL_NR - 1)) <<< 2)) = fn)
    (hvector : ¬ SyscallFrame (b.mem (b.mem L.ThreadCurrent))
      (L.SyscallVector + ((s.reg a4 &&& (SYSCALL_NR - 1)) <<< 2)))
    (hcall : ∀ p p', callee fn p p' → ServiceKeeps Held p p')
    (hheld : ∀ a, SyscallFrame (b.mem (b.mem L.ThreadCurrent)) a → Held a) :
    Asm.Leads (step c) callee (entry_text L)
      (fun addr p => addr = s.csr .mepc + 4 ∧ Served callee fn s p ∧
        ∀ a, Held a → ¬ SyscallFrame (b.mem (b.mem L.ThreadCurrent)) a → ¬ Scratch s a →
          p.2.mem a = b.mem a) 0 (s, b) := by
  obtain ⟨b1, hb1⟩ : ∃ b1, b1 = (b.store (s.reg sp + (-8)) (s.reg t0)).store
      (s.reg sp + (-8) + 4) (s.reg t1) := ⟨_, rfl⟩
  have hmem : ∀ a, ¬ Scratch s a → b1.mem a = b.mem a := fun a ha => hb1 ▸ store_scratch ha
  have htop : b1.mem (b1.mem L.ThreadCurrent) = b.mem (b.mem L.ThreadCurrent) := by
    rw [hmem _ hcurrent, hmem _ hthread]
  obtain ⟨u1, hu1⟩ : ∃ u1, u1 = ((s.setReg sp (s.reg sp + (-8))).setReg t0
      (s.csr .mcause)).setReg t1 8 := ⟨_, rfl⟩
  obtain ⟨u2, hu2⟩ : ∃ u2, u2 = u1.setReg sp (s.reg sp) := ⟨_, rfl⟩
  have h0 : u1.reg t0 = 8 := by
    rw [hu1, Cpu.reg_setReg_of_ne (by decide), Cpu.reg_setReg_self t0_ne, hcause]
  have h1 : u1.reg t1 = 8 := hu1 ▸ Cpu.reg_setReg_self t1_ne
  have hsp1 : u1.reg sp = s.reg sp + (-8) := by
    rw [hu1, Cpu.reg_setReg_of_ne (by decide), Cpu.reg_setReg_of_ne (by decide),
      Cpu.reg_setReg_self (by decide)]
  have hprev : s.reg sp + (-8) + 8 = s.reg sp := by
    rw [add_assoc]
    exact add_zero _
  have hreg2 : ∀ r, r ≠ t0 → r ≠ t1 → u2.reg r = s.reg r := by
    intro r hr0 hr1
    by_cases hr : r = sp
    · rw [hr, hu2, Cpu.reg_setReg_self (by decide)]
    · rw [hu2, Cpu.reg_setReg_of_ne hr, hu1, Cpu.reg_setReg_of_ne hr1, Cpu.reg_setReg_of_ne hr0,
        Cpu.reg_setReg_of_ne hr]
  have hcsr2 : u2.csr = s.csr := by
    rw [hu2, hu1]
    rfl
  have hlead := syscall_stack_leads (c := c) (b := b1) hreg2 hcsr2 ((hmem _ hentry).trans hfn)
    (htop.symm ▸ hvector) hcall (htop.symm ▸ hheld)
  rw [htop] at hlead
  refine .next rfl rfl (.next rfl
    (?_ : _ = ((s.setReg sp (s.reg sp + (-8)), b.store (s.reg sp + (-8)) (s.reg t0)),
      Asm.Next.next))
    (.next rfl (?_ : _ = ((s.setReg sp (s.reg sp + (-8)), b1), Asm.Next.next))
      (.next rfl rfl (.next rfl (?_ : _ = ((u1, b1), Asm.Next.next))
        (.goto rfl (?_ : _ = ((u1, b1), Asm.Next.goto 9))
          (.next rfl (?_ : _ = ((u2, b1), Asm.Next.next))
            (hlead.mono (fun _ _ _ h => h) ?_)))))))
  · simp only [step, exec]
    rw [Cpu.reg_setReg_self (by decide), Cpu.reg_setReg_of_ne (by decide), add_zero]
  · simp only [step, exec]
    rw [Cpu.reg_setReg_self (by decide), Cpu.reg_setReg_of_ne (by decide), hb1]
  · rw [hu1]
    rfl
  · simp only [step, exec, h0, h1, if_true]
  · simp only [step, exec, hsp1, hprev, hu2]
  · rintro addr p ⟨haddr, hserved, hkept⟩
    exact ⟨haddr, hserved, fun a ha hnot hscratch =>
      (hkept a ha hnot).trans (hmem a hscratch)⟩

end

/-- A program in user mode at a system call of code 3, with its other registers at 0x8000. -/
def calling : Cpu where
  gpr r := if r = a4 then 3 else 0x8000
  csr k := match k with
    | .mstatus => 0x80
    | .mepc => 0x400000
    | .mcause => 8

/-- The service 3, at 0x7000, returns 42. -/
def returns42 (_ : Word) (p p' : Cpu × Mem Unit) : Prop := p' = (p.1.setReg a0 42, p.2)

/-- The memory with the entry of the service. -/
def vectorMem : Mem Unit where
  mem a := if a = 0x1000 then 0x5000 else if a = 0x5000 then 0x6000 else
    if a = 0x200C then 0x7000 else 0
  link _ := none

/-- The program finds the result of service 3 behind its system call. -/
theorem ecall_served_calling :
    Asm.Leads (step ()) returns42 (entry_text smallKernel)
      (fun addr p => addr = 0x400004 ∧ p.1.reg a0 = 42 ∧ p.1.reg s1 = 0x8000) 0
      (calling, vectorMem) := by
  have hscratch : ∀ a : Word, a ≠ 0x7FF8 → a ≠ 0x7FFC → ¬ Scratch calling a := by
    rintro a h0 h4 (h | h)
    · exact h0 h
    · exact h4 h
  have hthread : vectorMem.mem smallKernel.ThreadCurrent = 0x5000 := by decide
  have hstack : vectorMem.mem 0x5000 = 0x6000 := by decide
  have hentry : smallKernel.SyscallVector + ((calling.reg a4 &&& (SYSCALL_NR - 1)) <<< 2) =
      0x200C := by decide
  have hfn : vectorMem.mem (smallKernel.SyscallVector +
      ((calling.reg a4 &&& (SYSCALL_NR - 1)) <<< 2)) = 0x7000 := by decide
  have hframe : ¬ SyscallFrame 0x6000 0x200C := by
    have hne : ∀ o ∈ ([0 * 4, 1 * 4, 2 * 4] : List Word), (0x200C : Word) ≠ 0x6000 + (-3 * 4) + o :=
      Asm.forall_mem_of_all (by decide)
    rintro ⟨o, ho, h⟩
    exact hne o ho h
  have hcall : ∀ p p', returns42 0x7000 p p' → ServiceKeeps (fun _ => True) p p' := by
    rintro p p' rfl
    have hne : ∀ r ∈ kept, r ≠ a0 := Asm.forall_mem_of_all (by decide)
    exact ⟨fun r hr => Cpu.reg_setReg_of_ne (hne r hr), rfl, fun _ _ => rfl⟩
  have hcause : calling.csr .mcause = 8 := rfl
  have hvector : ¬ SyscallFrame (vectorMem.mem (vectorMem.mem smallKernel.ThreadCurrent))
      (smallKernel.SyscallVector + ((calling.reg a4 &&& (SYSCALL_NR - 1)) <<< 2)) := by
    rw [hthread, hstack, hentry]
    exact hframe
  refine (ecall_served hcause (hscratch 0x1000 (by decide) (by decide)) ?_ ?_ hfn hvector hcall
    fun _ _ => trivial).mono (fun _ _ _ h => h) ?_
  · rw [hthread]
    exact hscratch 0x5000 (by decide) (by decide)
  · rw [hentry]
    exact hscratch 0x200C (by decide) (by decide)
  · rintro addr p ⟨haddr, hserved, -⟩
    obtain ⟨p3, p5, hp5, -, ha0⟩ := hserved.call
    cases hp5
    exact ⟨haddr, ha0.trans (Cpu.reg_setReg_self (by decide)), hserved.reg s1 (by decide)⟩

end Ko6.Hal.Riscv
