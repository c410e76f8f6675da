import Ko6.Hal.Cpu

set_option autoImplicit false

/-!
# Hal: the RISC-V instructions the kernel's assembly files use

The registers have the names of the files.  All the code runs in machine mode.
-/

namespace Ko6.Hal.Riscv

open Lib

abbrev Reg := Fin 32

abbrev ra : Reg := 1
abbrev sp : Reg := 2
abbrev t0 : Reg := 5
abbrev t1 : Reg := 6
abbrev t2 : Reg := 7
abbrev s0 : Reg := 8
abbrev s1 : Reg := 9
abbrev a0 : Reg := 10
abbrev a1 : Reg := 11
abbrev a2 : Reg := 12
abbrev a3 : Reg := 13
abbrev a4 : Reg := 14
abbrev a5 : Reg := 15
abbrev a6 : Reg := 16
abbrev a7 : Reg := 17
abbrev s2 : Reg := 18
abbrev s3 : Reg := 19
abbrev s4 : Reg := 20
abbrev s5 : Reg := 21
abbrev s6 : Reg := 22
abbrev s7 : Reg := 23
abbrev s8 : Reg := 24
abbrev s9 : Reg := 25
abbrev s10 : Reg := 26
abbrev s11 : Reg := 27
abbrev t3 : Reg := 28
abbrev t4 : Reg := 29
abbrev t5 : Reg := 30
abbrev t6 : Reg := 31

/-- The control and status registers. -/
inductive Csr where
  | mstatus
  | mepc
  | mcause
  deriving DecidableEq

/-- The registers of a processor. -/
structure Cpu where
  gpr : Reg → Word
  csr : Csr → Word

inductive Instr where
  | addi (rd rs : Reg) (imm : Word)
  | add (rd rs rt : Reg)
  | mv (rd rs : Reg)
  | li (rd : Reg) (imm : Word)
  | andi (rd rs : Reg) (imm : Word)
  | slli (rd rs : Reg) (sa : Nat)
  | srli (rd rs : Reg) (sa : Nat)
  | lw (rd : Reg) (offset : Word) (base : Reg)
  | sw (rs : Reg) (offset : Word) (base : Reg)
  | lr_w (rd : Reg) (offset : Word) (base : Reg)
  | sc_w (rd rs : Reg) (offset : Word) (base : Reg)
  | amoadd_w (rd rs : Reg) (offset : Word) (base : Reg)
  | fence
  | csrr (rd : Reg) (csr : Csr)
  | csrw (csr : Csr) (rs : Reg)
  | csrs (csr : Csr) (rs : Reg)
  | csrc (csr : Csr) (rs : Reg)
  | beq (rs rt : Reg) (label : Nat)
  | bnez (rs : Reg) (label : Nat)
  | j (addr : Word)
  | jal (addr : Word)
  | jalr (rs : Reg)
  | ret
  | mret
  deriving DecidableEq

namespace Cpu

/-- `zero` always reads as zero. -/
def reg (s : Cpu) (r : Reg) : Word := if r = 0 then 0 else s.gpr r

def setReg (s : Cpu) (r : Reg) (v : Word) : Cpu := { s with gpr := Function.update s.gpr r v }

def setCsr (s : Cpu) (r : Csr) (v : Word) : Cpu := { s with csr := Function.update s.csr r v }

variable {s : Cpu} {r r' : Reg} {k : Csr} {v : Word}

@[simp] theorem reg_zero : s.reg 0 = 0 := if_pos rfl

theorem reg_setReg_self (h : r ≠ 0) : (s.setReg r v).reg r = v := by
  simp only [reg, setReg, if_neg h, Function.update_self]

theorem reg_setReg_of_ne (h : r' ≠ r) : (s.setReg r v).reg r' = s.reg r' := by
  simp only [reg, setReg, Function.update_of_ne h]

@[simp] theorem reg_setCsr : (s.setCsr k v).reg r' = s.reg r' := rfl

@[simp] theorem setReg_csr : (s.setReg r v).csr = s.csr := rfl

theorem setCsr_csr : (s.setCsr k v).csr = Function.update s.csr k v := rfl

end Cpu

/-- What `mret` makes of `mstatus`: MIE becomes MPIE (bit 7 to bit 3), MPIE becomes 1 and MPP
(bits 11 and 12) becomes U-mode. -/
def mretStatus (mstatus : Word) : Word :=
  (mstatus &&& ~~~(0x1888 : Word)) ||| ((mstatus &&& 0x80) >>> 4) ||| 0x80

/-- The processor `c` executes one instruction. -/
def exec {C : Type} [DecidableEq C] (c : C) (i : Instr) (s : Cpu) (b : Mem C) :
    Cpu × Mem C × Next :=
  match i with
  | .addi rd rs imm => (s.setReg rd (s.reg rs + imm), b, .next)
  | .add rd rs rt => (s.setReg rd (s.reg rs + s.reg rt), b, .next)
  | .mv rd rs => (s.setReg rd (s.reg rs), b, .next)
  | .li rd imm => (s.setReg rd imm, b, .next)
  | .andi rd rs imm => (s.setReg rd (s.reg rs &&& imm), b, .next)
  | .slli rd rs sa => (s.setReg rd (s.reg rs <<< sa), b, .next)
  | .srli rd rs sa => (s.setReg rd (s.reg rs >>> sa), b, .next)
  | .lw rd offset base => (s.setReg rd (b.mem (s.reg base + offset)), b, .next)
  | .sw rs offset base => (s, b.store (s.reg base + offset) (s.reg rs), .next)
  | .lr_w rd offset base =>
    (s.setReg rd (b.mem (s.reg base + offset)), b.loadLinked c (s.reg base + offset), .next)
  | .sc_w rd rs offset base =>
    let r := b.storeConditional c (s.reg base + offset) (s.reg rs)
    (s.setReg rd (if r.1 then 0 else 1), r.2, .next)
  | .amoadd_w rd rs offset base =>
    let old := b.mem (s.reg base + offset)
    (s.setReg rd old, b.store (s.reg base + offset) (old + s.reg rs), .next)
  | .fence => (s, b, .next)
  | .csrr rd k => (s.setReg rd (s.csr k), b, .next)
  | .csrw k rs => (s.setCsr k (s.reg rs), b, .next)
  | .csrs k rs => (s.setCsr k (s.csr k ||| s.reg rs), b, .next)
  | .csrc k rs => (s.setCsr k (s.csr k &&& ~~~s.reg rs), b, .next)
  | .beq rs rt label => (s, b, if s.reg rs = s.reg rt then .goto label else .next)
  | .bnez rs label => (s, b, if s.reg rs ≠ 0 then .goto label else .next)
  | .j addr => (s, b, .leave addr)
  | .jal addr => (s, b, .call addr)
  | .jalr rs => (s, b, .call (s.reg rs))
  | .ret => (s, b, .leave (s.reg ra))
  | .mret => (s.setCsr .mstatus (mretStatus (s.csr .mstatus)), b, .leave (s.csr .mepc))

section
variable {C : Type} [DecidableEq C] {c : C} {rd rs base : Reg} {s : Cpu} {b : Mem C}

theorem exec_lr_w_zero : exec c (.lr_w rd 0 base) s b =
    (s.setReg rd (b.mem (s.reg base)), b.loadLinked c (s.reg base), .next) := by
  simp only [exec, add_zero]

theorem exec_sw_zero {v : Word} (hv : s.reg rs = v) :
    exec c (.sw rs 0 base) s b = (s, b.store (s.reg base) v, .next) := by
  simp only [exec, add_zero, hv]

theorem exec_sc_w_linked {v : Word} (h : b.link c = some (s.reg base)) (hv : s.reg rs = v) :
    exec c (.sc_w rd rs 0 base) s b = (s.setReg rd 0, b.store (s.reg base) v, .next) := by
  simp only [exec, add_zero, Bus.storeConditional_of_linked h, if_true, hv]

theorem exec_sc_w_not_linked (h : b.link c ≠ some (s.reg base)) :
    exec c (.sc_w rd rs 0 base) s b = (s.setReg rd 1, b.unlink c, .next) := by
  simp only [exec, add_zero, Bus.storeConditional_of_not_linked h, Bool.false_eq_true, if_false]

theorem exec_amoadd_w_zero : exec c (.amoadd_w rd rs 0 base) s b =
    (s.setReg rd (b.mem (s.reg base)), b.store (s.reg base) (b.mem (s.reg base) + s.reg rs),
      .next) := by
  simp only [exec, add_zero]

end

/-! ## Blocks of stores and loads -/

section
variable {C : Type} [DecidableEq C]

/-- The instruction on the registers and the memory together. -/
def step (c : C) (i : Instr) (p : Cpu × Mem C) : (Cpu × Mem C) × Next :=
  let r := exec c i p.1 p.2
  ((r.1, r.2.1), r.2.2)

variable {c : C} {s : Cpu} {b : Mem C}

/-- The instructions that always go on with the one behind them. -/
def Instr.isPlain : Instr → Bool
  | .beq .. | .bnez .. | .j _ | .jal _ | .jalr _ | .ret | .mret => false
  | _ => true

theorem plain_of_isPlain {i : Instr} (h : i.isPlain) : Asm.Plain (step c) i := by
  intro p
  cases i with
  | beq | bnez | j | jal | jalr | ret | mret => exact absurd h Bool.false_ne_true
  | _ => rfl

/-- The calls of functions. -/
def Instr.isCall : Instr → Bool
  | .jal _ | .jalr _ => true
  | _ => false

theorem step_ne_call {i : Instr} {p : Cpu × Mem C} {fn : Word} (h : i.isCall = false) :
    (step c i p).2 ≠ .call fn := by
  cases i with
  | jal | jalr => exact absurd h.symm Bool.false_ne_true
  | beq | bnez =>
    dsimp only [step, exec]
    split <;> simp
  | _ => simp [step, exec]

/-- Stores of some registers at their offsets, which are all different. -/
theorem block_sw (base : Reg) (ps : List (Reg × Word)) (hnd : (ps.map Prod.snd).Nodup) :
    ∃ b', Asm.block (step c) (ps.map fun p => .sw p.1 p.2 base) (s, b) = (s, b') ∧
      (∀ p ∈ ps, b'.mem (s.reg base + p.2) = s.reg p.1) ∧
      ∀ a, (∀ p ∈ ps, a ≠ s.reg base + p.2) → b'.mem a = b.mem a := by
  have hblock : ∃ b', Asm.block (step c) (ps.map fun p => .sw p.1 p.2 base) (s, b) = (s, b') ∧
      b'.mem = ps.foldl
        (fun m p => Function.update m (s.reg base + p.2) (s.reg p.1)) b.mem := by
    clear hnd
    induction ps generalizing b with
    | nil => exact ⟨b, rfl, rfl⟩
    | cons p ps ih => exact ih
  obtain ⟨b', hb', hmem⟩ := hblock
  have hnd' : (ps.map fun p => s.reg base + p.2).Nodup := by
    have := hnd.map (add_right_injective (s.reg base))
    rwa [List.map_map] at this
  refine ⟨b', hb', fun p hp => ?_, fun a ha => ?_⟩
  · rw [hmem]
    exact Asm.foldl_update_of_mem (fun p : Reg × Word => s.reg base + p.2) hnd' hp
  · rw [hmem]
    exact Asm.foldl_update_of_forall_ne ha

/-- Loads of some registers, all different and not the base, from their offsets. -/
theorem block_lw (base : Reg) (ps : List (Reg × Word)) (hnd : (ps.map Prod.fst).Nodup) (hbase : ∀ p ∈ ps, p.1 ≠ base ∧ p.1 ≠ 0) :
    ∃ s', Asm.block (step c) (ps.map fun p => .lw p.1 p.2 base) (s, b) = (s', b) ∧
      (∀ p ∈ ps, s'.reg p.1 = b.mem (s.reg base + p.2)) ∧
      (∀ r, (∀ p ∈ ps, r ≠ p.1) → s'.reg r = s.reg r) ∧
      s'.csr = s.csr := by
  have hblock : ∃ s', Asm.block (step c) (ps.map fun p => .lw p.1 p.2 base) (s, b) = (s', b) ∧
      s'.gpr = ps.foldl (fun f p => Function.update f p.1 (b.mem (s.reg base + p.2))) s.gpr ∧
      s'.csr = s.csr := by
    clear hnd
    induction ps generalizing s with
    | nil => exact ⟨s, rfl, rfl, rfl⟩
    | cons p ps ih =>
      obtain ⟨s', hs', hgpr, hrest⟩ := ih (s := s.setReg p.1 (b.mem (s.reg base + p.2)))
        fun q hq => hbase q (List.mem_cons_of_mem p hq)
      have hreg : (s.setReg p.1 (b.mem (s.reg base + p.2))).reg base = s.reg base :=
        Cpu.reg_setReg_of_ne (hbase p List.mem_cons_self).1.symm
      rw [hreg] at hgpr
      exact ⟨s', hs', hgpr, hrest⟩
  obtain ⟨s', hs', hgpr, hcsr⟩ := hblock
  refine ⟨s', hs', fun p hp => ?_, fun r hr => ?_, hcsr⟩
  · rw [Cpu.reg, if_neg (hbase p hp).2, hgpr]
    exact Asm.foldl_update_of_mem Prod.fst hnd hp
  · rw [Cpu.reg, Cpu.reg, hgpr, Asm.foldl_update_of_forall_ne hr]

end

end Ko6.Hal.Riscv
