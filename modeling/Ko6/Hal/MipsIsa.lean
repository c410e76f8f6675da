import Ko6.Hal.Cpu

set_option autoImplicit false

/-!
# Hal: the MIPS instructions the kernel's assembly files use

Registers are numbered as in the files: `$2` is `2`, and `$12`, `$13`, `$14` of coprocessor 0
are the status, the cause and the return address of an exception.  Branches are those of
`.set reorder`, without delay slots.
-/

namespace Ko6.Hal.Mips

open Lib

abbrev Reg := Fin 32

/-- The registers of a processor. -/
structure Cpu where
  gpr : Reg → Word
  hi : Word
  lo : Word
  cp0 : Reg → Word

inductive Instr where
  | addiu (rt rs : Reg) (imm : Word)
  | addu (rd rs rt : Reg)
  | move (rd rs : Reg)
  | li (rt : Reg) (imm : Word)
  | andi (rt rs : Reg) (imm : Word)
  | sll (rd rt : Reg) (sa : Nat)
  | ext (rt rs : Reg) (pos size : Nat)
  | lw (rt : Reg) (offset : Word) (base : Reg)
  | sw (rt : Reg) (offset : Word) (base : Reg)
  | ll (rt : Reg) (offset : Word) (base : Reg)
  | sc (rt : Reg) (offset : Word) (base : Reg)
  | sync
  | mfhi (rd : Reg)
  | mflo (rd : Reg)
  | mthi (rs : Reg)
  | mtlo (rs : Reg)
  | mfc0 (rt rd : Reg)
  | mtc0 (rt rd : Reg)
  | beq (rs rt : Reg) (label : Nat)
  | bne (rs rt : Reg) (label : Nat)
  | j (addr : Word)
  | jr (rs : Reg)
  | jal (addr : Word)
  | jalr (rs : Reg)
  | eret
  deriving DecidableEq

namespace Cpu

/-- `$0` always reads as zero. -/
def reg (s : Cpu) (r : Reg) : Word := if r = 0 then 0 else s.gpr r

def setReg (s : Cpu) (r : Reg) (v : Word) : Cpu := { s with gpr := Function.update s.gpr r v }

def setCp0 (s : Cpu) (r : Reg) (v : Word) : Cpu := { s with cp0 := Function.update s.cp0 r v }

variable {s : Cpu} {r r' : Reg} {v : Word}

@[simp] theorem reg_zero : s.reg 0 = 0 := if_pos rfl

theorem reg_setReg_self (h : r ≠ 0) : (s.setReg r v).reg r = v := by
  simp only [reg, setReg, if_neg h, Function.update_self]

theorem reg_setReg_of_ne (h : r' ≠ r) : (s.setReg r v).reg r' = s.reg r' := by
  simp only [reg, setReg, Function.update_of_ne h]

@[simp] theorem reg_setCp0 : (s.setCp0 r v).reg r' = s.reg r' := rfl

@[simp] theorem setReg_cp0 : (s.setReg r v).cp0 = s.cp0 := rfl

@[simp] theorem setReg_hi : (s.setReg r v).hi = s.hi := rfl

@[simp] theorem setReg_lo : (s.setReg r v).lo = s.lo := rfl

@[simp] theorem setCp0_hi : (s.setCp0 r v).hi = s.hi := rfl

@[simp] theorem setCp0_lo : (s.setCp0 r v).lo = s.lo := rfl

theorem setCp0_cp0 : (s.setCp0 r v).cp0 = Function.update s.cp0 r v := rfl

end Cpu

/-- Bit 1 of the status register, which an exception sets. -/
def exl : Word := 0x2

/-- The processor `c` executes one instruction.  `eret` clears the exception level and goes
to the address in `$14`. -/
def exec {C : Type} [DecidableEq C] (c : C) (i : Instr) (s : Cpu) (b : Mem C) :
    Cpu × Mem C × Next :=
  match i with
  | .addiu rt rs imm => (s.setReg rt (s.reg rs + imm), b, .next)
  | .addu rd rs rt => (s.setReg rd (s.reg rs + s.reg rt), b, .next)
  | .move rd rs => (s.setReg rd (s.reg rs), b, .next)
  | .li rt imm => (s.setReg rt imm, b, .next)
  | .andi rt rs imm => (s.setReg rt (s.reg rs &&& imm), b, .next)
  | .sll rd rt sa => (s.setReg rd (s.reg rt <<< sa), b, .next)
  | .ext rt rs pos size =>
    (s.setReg rt ((s.reg rs >>> pos) &&& (((1 : Word) <<< size) - 1)), b, .next)
  | .lw rt offset base => (s.setReg rt (b.mem (s.reg base + offset)), b, .next)
  | .sw rt offset base => (s, b.store (s.reg base + offset) (s.reg rt), .next)
  | .ll rt offset base =>
    (s.setReg rt (b.mem (s.reg base + offset)), b.loadLinked c (s.reg base + offset), .next)
  | .sc rt offset base =>
    let r := b.storeConditional c (s.reg base + offset) (s.reg rt)
    (s.setReg rt (if r.1 then 1 else 0), r.2, .next)
  | .sync => (s, b, .next)
  | .mfhi rd => (s.setReg rd s.hi, b, .next)
  | .mflo rd => (s.setReg rd s.lo, b, .next)
  | .mthi rs => ({ s with hi := s.reg rs }, b, .next)
  | .mtlo rs => ({ s with lo := s.reg rs }, b, .next)
  | .mfc0 rt rd => (s.setReg rt (s.cp0 rd), b, .next)
  | .mtc0 rt rd => (s.setCp0 rd (s.reg rt), b, .next)
  | .beq rs rt label => (s, b, if s.reg rs = s.reg rt then .goto label else .next)
  | .bne rs rt label => (s, b, if s.reg rs ≠ s.reg rt then .goto label else .next)
  | .j addr => (s, b, .leave addr)
  | .jr rs => (s, b, .leave (s.reg rs))
  | .jal addr => (s, b, .call addr)
  | .jalr rs => (s, b, .call (s.reg rs))
  | .eret => (s.setCp0 12 (s.cp0 12 &&& ~~~exl), b, .leave (s.cp0 14))

section
variable {C : Type} [DecidableEq C] {c : C} {rt base : Reg} {s : Cpu} {b : Mem C}

theorem exec_ll_zero : exec c (.ll rt 0 base) s b =
    (s.setReg rt (b.mem (s.reg base)), b.loadLinked c (s.reg base), .next) := by
  simp only [exec, add_zero]

theorem exec_sw_zero {v : Word} (hv : s.reg rt = v) :
    exec c (.sw rt 0 base) s b = (s, b.store (s.reg base) v, .next) := by
  simp only [exec, add_zero, hv]

theorem exec_sc_linked {v : Word} (h : b.link c = some (s.reg base)) (hv : s.reg rt = v) :
    exec c (.sc rt 0 base) s b = (s.setReg rt 1, b.store (s.reg base) v, .next) := by
  simp only [exec, add_zero, Bus.storeConditional_of_linked h, if_true, hv]

theorem exec_sc_not_linked (h : b.link c ≠ some (s.reg base)) :
    exec c (.sc rt 0 base) s b = (s.setReg rt 0, b.unlink c, .next) := by
  simp only [exec, add_zero, Bus.storeConditional_of_not_linked h, Bool.false_eq_true,
    if_false]

end

/-! ## Blocks of stores and loads -/

section
variable {C : Type} [DecidableEq C]

/-- The instruction on the registers and the memory together. -/
def step (c : C) (i : Instr) (p : Cpu × Mem C) : (Cpu × Mem C) × Next :=
  let r := exec c i p.1 p.2
  ((r.1, r.2.1), r.2.2)

variable {c : C} {s : Cpu} {b : Mem C}

/-- The instructions that always go on with the one behind them. -/
def Instr.isPlain : Instr → Bool
  | .beq .. | .bne .. | .j _ | .jr _ | .jal _ | .jalr _ | .eret => false
  | _ => true

theorem plain_of_isPlain {i : Instr} (h : i.isPlain) : Asm.Plain (step c) i := by
  intro p
  cases i with
  | beq | bne | j | jr | jal | jalr | eret => exact absurd h Bool.false_ne_true
  | _ => rfl

/-- The calls of functions. -/
def Instr.isCall : Instr → Bool
  | .jal _ | .jalr _ => true
  | _ => false

theorem step_ne_call {i : Instr} {p : Cpu × Mem C} {fn : Word} (h : i.isCall = false) :
    (step c i p).2 ≠ .call fn := by
  cases i with
  | jal | jalr => exact absurd h.symm Bool.false_ne_true
  | beq | bne =>
    dsimp only [step, exec]
    split <;> simp
  | _ => simp [step, exec]

/-- Stores of some registers at their offsets, which are all different. -/
theorem block_sw (base : Reg) (ps : List (Reg × Word)) (hnd : (ps.map Prod.snd).Nodup) :
    ∃ b', Asm.block (step c) (ps.map fun p => .sw p.1 p.2 base) (s, b) = (s, b') ∧
      (∀ p ∈ ps, b'.mem (s.reg base + p.2) = s.reg p.1) ∧
      ∀ a, (∀ p ∈ ps, a ≠ s.reg base + p.2) → b'.mem a = b.mem a := by
  have hblock : ∃ b', Asm.block (step c) (ps.map fun p => .sw p.1 p.2 base) (s, b) = (s, b') ∧
      b'.mem = ps.foldl
        (fun m p => Function.update m (s.reg base + p.2) (s.reg p.1)) b.mem := by
    clear hnd
    induction ps generalizing b with
    | nil => exact ⟨b, rfl, rfl⟩
    | cons p ps ih => exact ih
  obtain ⟨b', hb', hmem⟩ := hblock
  have hnd' : (ps.map fun p => s.reg base + p.2).Nodup := by
    have := hnd.map (add_right_injective (s.reg base))
    rwa [List.map_map] at this
  refine ⟨b', hb', fun p hp => ?_, fun a ha => ?_⟩
  · rw [hmem]
    exact Asm.foldl_update_of_mem (fun p : Reg × Word => s.reg base + p.2) hnd' hp
  · rw [hmem]
    exact Asm.foldl_update_of_forall_ne ha

/-- Loads of some registers, all different and not the base, from their offsets. -/
theorem block_lw (base : Reg) (ps : List (Reg × Word)) (hnd : (ps.map Prod.fst).Nodup) (hbase : ∀ p ∈ ps, p.1 ≠ base ∧ p.1 ≠ 0) :
    ∃ s', Asm.block (step c) (ps.map fun p => .lw p.1 p.2 base) (s, b) = (s', b) ∧
      (∀ p ∈ ps, s'.reg p.1 = b.mem (s.reg base + p.2)) ∧
      (∀ r, (∀ p ∈ ps, r ≠ p.1) → s'.reg r = s.reg r) ∧
      s'.cp0 = s.cp0 ∧ s'.hi = s.hi ∧ s'.lo = s.lo := by
  have hblock : ∃ s', Asm.block (step c) (ps.map fun p => .lw p.1 p.2 base) (s, b) = (s', b) ∧
      s'.gpr = ps.foldl (fun f p => Function.update f p.1 (b.mem (s.reg base + p.2))) s.gpr ∧
      s'.cp0 = s.cp0 ∧ s'.hi = s.hi ∧ s'.lo = s.lo := by
    clear hnd
    induction ps generalizing s with
    | nil => exact ⟨s, rfl, rfl, rfl, rfl, rfl⟩
    | cons p ps ih =>
      obtain ⟨s', hs', hgpr, hrest⟩ := ih (s := s.setReg p.1 (b.mem (s.reg base + p.2)))
        fun q hq => hbase q (List.mem_cons_of_mem p hq)
      have hreg : (s.setReg p.1 (b.mem (s.reg base + p.2))).reg base = s.reg base :=
        Cpu.reg_setReg_of_ne (hbase p List.mem_cons_self).1.symm
      rw [hreg] at hgpr
      exact ⟨s', hs', hgpr, hrest⟩
  obtain ⟨s', hs', hgpr, hcp0, hhi, hlo⟩ := hblock
  refine ⟨s', hs', fun p hp => ?_, fun r hr => ?_, hcp0, hhi, hlo⟩
  · rw [Cpu.reg, if_neg (hbase p hp).2, hgpr]
    exact Asm.foldl_update_of_mem Prod.fst hnd hp
  · rw [Cpu.reg, Cpu.reg, hgpr, Asm.foldl_update_of_forall_ne hr]

end

end Ko6.Hal.Mips
