import Ko6.Lib.WrapClock
import Mathlib.Data.BitVec

set_option autoImplicit false

/-!
# Common: delays

`delay` of the kernel and of the applications adds the cycles to the first reading of the
clock and waits until the clock is not below the sum.  The clock and the sum are 32-bit
numbers that wrap.  When only the sum has wrapped the delay is over at once, and when only
the clock has wrapped it goes on for another period of the clock.
-/

namespace Ko6.Common

open Ko6.Lib

/-- The loop of `delay` on the readings of the clock: the number of those before the one that
ends it. -/
def delayLoop (expectedTime : BitVec 32) : List (BitVec 32) → Option Nat
  | [] => none
  | now :: clock =>
    if now < expectedTime then (delayLoop expectedTime clock).map (· + 1) else some 0

/-- What the two functions `delay` have in common. -/
def delayOn (nbcycles : BitVec 32) : List (BitVec 32) → Option Nat
  | [] => none
  | oldTime :: clock => delayLoop (oldTime + nbcycles) clock

end Ko6.Common

/-- `delay` of the kernel, which reads the counter of the processor. -/
def Ko6.Kernel.delay (nbcycles : BitVec 32) (clock : List (BitVec 32)) : Option Nat :=
  Ko6.Common.delayOn nbcycles clock

/-- `delay` of the applications, which reads it by a system call. -/
def Ko6.Ulib.delay (nbcycles : BitVec 32) (clock : List (BitVec 32)) : Option Nat :=
  Ko6.Common.delayOn nbcycles clock

namespace Ko6.Common

open Ko6.Lib

/-! ## The clock -/

/-- The readings of the clock, with the cycles between each two of them. -/
def clockFrom (start : BitVec 32) (ds : List Nat) : List (BitVec 32) :=
  start :: (elapsed 0 ds).map fun e => start + BitVec.ofNat 32 e

/-- A delay ends at the first reading for which `nbcycles` cycles have elapsed, and does not end
without one. -/
def DelaysExactly (delay : BitVec 32 → List (BitVec 32) → Option Nat) (start nbcycles : BitVec 32)
    (ds : List Nat) : Prop :=
  delay nbcycles (clockFrom start ds) = (elapsed 0 ds).findIdx? (fun e => nbcycles.toNat ≤ e)

instance (delay : BitVec 32 → List (BitVec 32) → Option Nat) (start nbcycles : BitVec 32)
    (ds : List Nat) : Decidable (DelaysExactly delay start nbcycles ds) :=
  inferInstanceAs (Decidable (_ = _))

theorem delayLoop_eq (expectedTime : BitVec 32) : ∀ clock : List (BitVec 32),
    delayLoop expectedTime clock = clock.findIdx? (fun now => ¬ now < expectedTime)
  | [] => rfl
  | now :: clock => by
    rw [delayLoop, List.findIdx?_cons, delayLoop_eq expectedTime clock]
    by_cases hlt : now < expectedTime
    · rw [if_pos hlt, if_neg (by simpa using hlt)]
    · rw [if_neg hlt, if_pos (by simpa using hlt)]

theorem toNat_reading (start : BitVec 32) (e : Nat) :
    (start + BitVec.ofNat 32 e).toNat = reading (2 ^ 32) start.toNat e := by
  rw [BitVec.toNat_add, BitVec.toNat_ofNat, Nat.add_mod_mod]
  rfl

/-- The two functions on the readings of a clock. -/
theorem delayOn_eq (start nbcycles : BitVec 32) (ds : List Nat) :
    delayOn nbcycles (clockFrom start ds) = (elapsed 0 ds).findIdx? (fun e =>
      ¬ reading (2 ^ 32) start.toNat e < reading (2 ^ 32) start.toNat nbcycles.toNat) := by
  have htarget : (start + nbcycles).toNat = reading (2 ^ 32) start.toNat nbcycles.toNat :=
    BitVec.toNat_add start nbcycles
  rw [clockFrom, delayOn, delayLoop_eq, List.findIdx?_map]
  refine congrArg (fun p => (elapsed 0 ds).findIdx? p) (funext fun e => ?_)
  refine decide_eq_decide.mpr (not_congr ?_)
  rw [BitVec.lt_def, toNat_reading, htarget]

theorem delayOn_exact_iff {start nbcycles : BitVec 32} {ds : List Nat} (hn : nbcycles.toNat < 2 ^ 31)
    (hds : ∀ d ∈ ds, d < 2 ^ 31) : DelaysExactly delayOn start nbcycles ds ↔
      WrapsTogether (2 ^ 32) start.toNat nbcycles.toNat (elapsed 0 ds) := by
  rw [DelaysExactly, delayOn_eq]
  refine firstNotBelow_iff start.isLt ds 0 (Nat.zero_le _) nbcycles.isLt fun d hd => ?_
  have hd' := hds d hd
  omega

/-- For every start of the clock, every delay below 2³¹ and all readings with less than 2³¹ cycles
between each two: the delays of the kernel and of the applications end at the first reading
for which the cycles have elapsed if and only if, at the readings up to that one, the clock
has wrapped exactly if the time to reach has. -/
theorem delays_exactly_iff (start nbcycles : BitVec 32) (ds : List Nat)
    (hn : nbcycles.toNat < 2 ^ 31) (hds : ∀ d ∈ ds, d < 2 ^ 31) :
    (DelaysExactly Kernel.delay start nbcycles ds ↔
      WrapsTogether (2 ^ 32) start.toNat nbcycles.toNat (elapsed 0 ds)) ∧
    (DelaysExactly Ulib.delay start nbcycles ds ↔
      WrapsTogether (2 ^ 32) start.toNat nbcycles.toNat (elapsed 0 ds)) :=
  ⟨delayOn_exact_iff hn hds, delayOn_exact_iff hn hds⟩

/-- A delay of 50 cycles that does not come near the end of the clock. -/
theorem delays_exactly_iff_fifty :
    Kernel.delay 50 (clockFrom 100 [20, 20, 20]) = some 2 ∧
      DelaysExactly Kernel.delay 100 50 [20, 20, 20] ∧
      DelaysExactly Ulib.delay 100 50 [20, 20, 20] := by
  have h := delays_exactly_iff 100 50 [20, 20, 20] (by decide) (by decide)
  exact ⟨by decide, h.1.mpr (by decide), h.2.mpr (by decide)⟩

/-- 16 cycles before its end, a delay of 32 cycles is over after one cycle; 32 cycles before its
end, one of 16 cycles goes on when 48 have elapsed. -/
theorem delays_not_exactly :
    Kernel.delay 32 (clockFrom 0xFFFFFFF0 [1]) = some 0 ∧
    Kernel.delay 16 (clockFrom 0xFFFFFFE0 [48]) = none ∧
    ¬ DelaysExactly Kernel.delay 0xFFFFFFF0 32 [1] ∧ ¬ DelaysExactly Ulib.delay 0xFFFFFFF0 32 [1] ∧
    ¬ DelaysExactly Kernel.delay 0xFFFFFFE0 16 [48] ∧
    ¬ DelaysExactly Ulib.delay 0xFFFFFFE0 16 [48] := by
  decide

end Ko6.Common
