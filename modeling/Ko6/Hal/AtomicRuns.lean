import Ko6.Hal.AtomicMips
import Ko6.Hal.AtomicRiscv

set_option autoImplicit false

/-!
# Hal: the atomic operations of both kinds of processors

The locks exclude, a lock that is free is got, and the additions have an order.
-/

namespace Ko6.Hal

/-- The file `atomic.S` of the kind. -/
def Kind.atomicS (C : Type) [DecidableEq C] : Kind → Atomic.Text C
  | .mips => Mips.atomicS C
  | .riscv => Riscv.atomicS C

namespace Atomic

open Lib Lib.LinkedSync

section
variable {C : Type} [DecidableEq C] (kind : Kind) {L K : Word → Prop} {init : Word → Word}

theorem atomicS_follows : ∃ At, (kind.atomicS C).Follows At ∧
    ∀ {a n cpu st c b}, At (.spinLock a) n cpu st → b.mem a = 0 →
      (kind.atomicS C).Ends c 109 n cpu b := by
  cases kind with
  | mips => exact ⟨Mips.At, Mips.atomicS_follows, fun h hmem => h.ends hmem⟩
  | riscv => exact ⟨Riscv.At, Riscv.atomicS_follows, fun h hmem => h.ends hmem⟩

/-- In every state of every run a lock is held by one processor at most.  Its word is one
while it is held, and it is zero or one, and zero when no processor is engaged with it. -/
theorem spin_lock_excludes (hLK : ∀ a, L a → ¬ K a) {s : Sys (kind.atomicS C)}
    (h : s.Reachable L K init) {a : Word} (ha : L a) :
    (∀ c d, s.held c a → s.held d a → c = d) ∧ (∀ c, s.held c a → s.bus.mem a = 1) ∧
      (s.bus.mem a = 0 ∨ s.bus.mem a = 1 ∧ ∃ c, s.Engaged c a) := by
  obtain ⟨At, hfollows, -⟩ := atomicS_follows (C := C) kind
  exact lock_excludes hfollows hLK h ha

/-- Two processors in their programs, with all registers and words zero. -/
def twoIdle : Sys (Kind.mips.atomicS Bool) where
  bus := ⟨fun _ => 0, fun _ => none⟩
  place _ := .program
  cpu _ := (⟨fun _ => 0, 0, 0, fun _ => 0⟩ : Mips.Cpu)
  held _ _ := False
  returned _ := []

theorem twoIdle_start : twoIdle.Start (· = 0) fun _ => 0 :=
  ⟨rfl, fun _ _ => rfl, fun _ => rfl, fun _ _ h => h, fun _ => rfl⟩

/-- The first of them has called `spin_lock` for the lock at address 0. -/
def oneSpins : Sys (Kind.mips.atomicS Bool) :=
  { twoIdle with place := Function.update twoIdle.place false (.text (.spinLock 0) Mips.spin_lock) }

theorem oneSpins_reachable : oneSpins.Reachable (· = 0) (· = 4) fun _ => 0 := by
  have hcpu : Function.update twoIdle.cpu false (twoIdle.cpu false) = twoIdle.cpu :=
    Function.update_eq_self ..
  have hstep := Sys.Step.callSpinLock (L := (· = 0)) (K := (· = 4)) twoIdle false (twoIdle.cpu false)
    rfl rfl
  rw [hcpu] at hstep
  exact .step (.start twoIdle_start) hstep

theorem spin_lock_excludes_oneSpins :
    (∀ c d, (oneSpins.tick false).held c 0 → (oneSpins.tick false).held d 0 → c = d) ∧
      (∀ c, (oneSpins.tick false).held c 0 → (oneSpins.tick false).bus.mem 0 = 1) ∧
      ((oneSpins.tick false).bus.mem 0 = 0 ∨
        (oneSpins.tick false).bus.mem 0 = 1 ∧ ∃ c, (oneSpins.tick false).Engaged c 0) :=
  spin_lock_excludes .mips (L := (· = 0)) (K := (· = 4))
    (fun a h0 h4 => absurd (h0.symm.trans h4) (by decide))
    (.step oneSpins_reachable (.tick _ false)) rfl

/-- A processor anywhere in `spin_lock` gets a lock that is free, within 109 instructions when
the others leave it alone. -/
theorem spin_lock_gets (hLK : ∀ a, L a → ¬ K a) {s : Sys (kind.atomicS C)}
    (h : s.Reachable L K init) {c : C} {a : Word} {n : Nat}
    (hplace : s.place c = .text (.spinLock a) n) (hfree : s.bus.mem a = 0) :
    ∃ j, j ≤ 109 ∧ ((fun s => s.tick c)^[j] s).place c = .program ∧
      ((fun s => s.tick c)^[j] s).held c a := by
  obtain ⟨At, hfollows, hends⟩ := atomicS_follows (C := C) kind
  obtain ⟨q, -, hsim⟩ := reachable_sim hfollows hLK h
  have hin := hsim.stage c
  rw [hplace] at hin
  exact (hends hin hfree).held hplace

theorem spin_lock_gets_oneSpins :
    ∃ j, j ≤ 109 ∧ ((fun s => s.tick false)^[j] oneSpins).place false = .program ∧
      ((fun s => s.tick false)^[j] oneSpins).held false 0 :=
  spin_lock_gets .mips (L := (· = 0)) (K := (· = 4))
    (fun a h0 h4 => absurd (h0.symm.trans h4) (by decide))
    oneSpins_reachable (n := Mips.spin_lock) rfl rfl

/-- In every run the additions of all processors have an order, which only grows: each gives
what the counter holds behind it, and those of one processor are, in their order, what its
calls have returned and the one it is about to return. -/
theorem atomic_add_linearizable (hLK : ∀ a, L a → ¬ K a) {run : Nat → Sys (kind.atomicS C)}
    (h0 : (run 0).Start L init) (hrun : ∀ i, (run i).Step L K (run (i + 1))) :
    ∃ log : Nat → List (C × Addition Word Word),
      (∀ i, log i <+: log (i + 1)) ∧ ∀ i, (run i).Linearizes K init (log i) := by
  obtain ⟨At, hfollows, -⟩ := atomicS_follows (C := C) kind
  exact add_linearizable hfollows hLK h0 hrun

/-- The first processor adds its `$5` to the counter at address 4, and nothing else happens. -/
def oneAdds : Nat → Sys (Kind.mips.atomicS Bool)
  | 0 => twoIdle
  | i + 1 => (fun s => s.tick false)^[i]
      { twoIdle with
        place := Function.update twoIdle.place false (.text (.atomicAdd 4 7) Mips.atomic_inc)
        cpu := Function.update twoIdle.cpu false
          (((twoIdle.cpu false : Mips.Cpu).setReg 4 4).setReg 5 7 : Mips.Cpu) }

theorem oneAdds_step (i : Nat) : (oneAdds i).Step (· = 0) (· = 4) (oneAdds (i + 1)) := by
  cases i with
  | zero =>
    exact .callAtomicAdd twoIdle false (((twoIdle.cpu false : Mips.Cpu).setReg 4 4).setReg 5 7 : Mips.Cpu)
      rfl rfl
  | succ i =>
    rw [oneAdds, oneAdds, Function.iterate_succ_apply']
    exact .tick _ false

theorem atomic_add_linearizable_oneAdds :
    ∃ log : Nat → List (Bool × Addition Word Word),
      (∀ i, log i <+: log (i + 1)) ∧
        ∀ i, (oneAdds i).Linearizes (· = 4) (fun _ => 0) (log i) :=
  atomic_add_linearizable .mips (L := (· = 0)) (K := (· = 4))
    (fun a h0 h4 => absurd (h0.symm.trans h4) (by decide)) twoIdle_start oneAdds_step

end

end Atomic

end Ko6.Hal
