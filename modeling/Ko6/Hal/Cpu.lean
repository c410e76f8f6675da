import Ko6.Lib.Linked
import Ko6.Lib.Asm
import Mathlib

set_option autoImplicit false

/-!
# Hal: what the processors have in common

A word of memory is named by its address.  The texts of the assembly files are lists of
instructions, with the places of the labels beside them.
-/

namespace Ko6.Hal

abbrev Word := BitVec 32

/-- The memory as the processors `C` see it. -/
abbrev Mem (C : Type) := Lib.Bus C Word Word

instance : NeZero (1 : Word) := ⟨by decide⟩

/-- Each processor has a register 0. -/
scoped instance registers_neZero : NeZero 32 := ⟨by decide⟩

theorem toNat_pos {v : Word} (h : v ≠ 0) : 0 < v.toNat :=
  Nat.pos_of_ne_zero fun h0 => h (BitVec.eq_of_toNat_eq h0)

theorem toNat_pred {v : Word} (h : 0 < v.toNat) : (v + -1).toNat = v.toNat - 1 := by
  bv_omega

/-- Where the execution goes on after an instruction. -/
abbrev Next := Lib.Asm.Next Word

/-- The addresses that the linker gives to `entry.S`. -/
structure EntrySymbols where
  ThreadCurrent : Word
  SyscallVector : Word
  isrcall : Word
  kpanic : Word

/-- `SYSCALL_NR`. -/
def SYSCALL_NR : Word := 32

/-- The kinds of processors the kernel is written for. -/
inductive Kind where
  | mips
  | riscv

end Ko6.Hal
