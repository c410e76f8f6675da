import Mathlib.Data.List.Basic
import Mathlib.Tactic.Common

set_option autoImplicit false

/-!
# Lib: a clock that wraps

A counter counts up and starts again at 0 after `period` steps.  `start` is what it shows
first, and the other readings are given by the steps between two of them.  A target that is
`n` steps away is compared with the readings as numbers: this tells whether `n` steps have
elapsed exactly as long as the counter has passed its end just when the target has.
-/

namespace Ko6.Lib

/-- The steps since the first reading at each further one, of which `e` are over already. -/
def elapsed : Nat → List Nat → List Nat
  | _, [] => []
  | e, d :: ds => (e + d) :: elapsed (e + d) ds

section
variable (period start : Nat)

/-- What the counter shows after `e` steps. -/
def reading (e : Nat) : Nat := (start + e) % period

/-- The counter has passed its end within `e` steps. -/
def Wrapped (e : Nat) : Prop := period ≤ start + e

instance (e : Nat) : Decidable (Wrapped period start e) := inferInstanceAs (Decidable (_ ≤ _))

/-- At the readings up to the first one from `n` steps on, the counter has passed its end
exactly if the target has. -/
def WrapsTogether (n : Nat) : List Nat → Prop
  | [] => True
  | e :: es => (Wrapped period start e ↔ Wrapped period start n) ∧ (e < n → WrapsTogether n es)

instance decidableWrapsTogether (n : Nat) : (es : List Nat) → Decidable (WrapsTogether period start n es)
  | [] => .isTrue trivial
  | _ :: es =>
    have := decidableWrapsTogether n es
    inferInstanceAs (Decidable ((_ ↔ _) ∧ (_ → _)))

end

section
variable {period start n e : Nat}

theorem reading_of_not_wrapped (h : ¬ Wrapped period start e) : reading period start e = start + e :=
  Nat.mod_eq_of_lt (Nat.not_le.mp h)

theorem reading_of_wrapped (hs : start < period) (he : e < period) (h : Wrapped period start e) :
    reading period start e = start + e - period := by
  have hle : period ≤ start + e := h
  rw [reading, Nat.mod_eq_sub_mod hle, Nat.mod_eq_of_lt (by omega)]

/-- A reading is below a target on the same side of the end exactly before it. -/
theorem reading_lt_iff_of_iff (hs : start < period) (hn : n < period) (he : e < period)
    (h : Wrapped period start e ↔ Wrapped period start n) :
    reading period start e < reading period start n ↔ e < n := by
  by_cases hw : Wrapped period start n
  · have hle : period ≤ start + e := h.mpr hw
    have hle' : period ≤ start + n := hw
    rw [reading_of_wrapped hs he (h.mpr hw), reading_of_wrapped hs hn hw]
    omega
  · rw [reading_of_not_wrapped (mt h.mp hw), reading_of_not_wrapped hw]
    omega

/-- On the other side it is below exactly behind it. -/
theorem reading_lt_iff_of_not_iff (hs : start < period) (hn : n < period) (he : e < period)
    (h : ¬ (Wrapped period start e ↔ Wrapped period start n)) :
    reading period start e < reading period start n ↔ n ≤ e := by
  by_cases hw : Wrapped period start n
  · have hnot : ¬ Wrapped period start e := fun he' => h (iff_of_true he' hw)
    have hlt : start + e < period := Nat.not_le.mp hnot
    have hle : period ≤ start + n := hw
    rw [reading_of_not_wrapped hnot, reading_of_wrapped hs hn hw]
    omega
  · have hlt : start + n < period := Nat.not_le.mp hw
    have hwe : Wrapped period start e := by
      by_contra hnot
      exact h (iff_of_false hnot hw)
    have hle : period ≤ start + e := hwe
    rw [reading_of_wrapped hs he hwe, reading_of_not_wrapped hw]
    omega

/-- The first reading that is not below the target is the first one from `n` steps on if and
only if the counter and the target pass the end together. -/
theorem firstNotBelow_iff (hs : start < period) : ∀ (ds : List Nat) (e : Nat), e ≤ n →
    n < period → (∀ d ∈ ds, n + d < period) →
    ((elapsed e ds).findIdx? (fun e => ¬ reading period start e < reading period start n) =
        (elapsed e ds).findIdx? (fun e => n ≤ e) ↔
      WrapsTogether period start n (elapsed e ds))
  | [], _, _, _, _ => iff_of_true rfl trivial
  | d :: ds, e, hen, hn, hds => by
    have hd : n + d < period := hds d List.mem_cons_self
    have he : e + d < period := by omega
    rw [elapsed, List.findIdx?_cons, List.findIdx?_cons, WrapsTogether]
    by_cases hside : Wrapped period start (e + d) ↔ Wrapped period start n
    · have htest := reading_lt_iff_of_iff hs hn he hside
      rcases Nat.lt_or_ge (e + d) n with hlt | hge
      · have ih := firstNotBelow_iff hs ds (e + d) (Nat.le_of_lt hlt) hn fun d' hd' =>
          hds d' (List.mem_cons_of_mem _ hd')
        have hinj : Function.Injective (Option.map fun i : Nat => i + 1) :=
          Option.map_injective fun _ _ heq => Nat.succ.inj heq
        rw [if_neg (by simpa using htest.mpr hlt), if_neg (by simpa using hlt), hinj.eq_iff, ih]
        exact ⟨fun h => ⟨hside, fun _ => h⟩, fun h => h.2 hlt⟩
      · rw [if_pos (by simpa using mt htest.mp (Nat.not_lt.mpr hge)), if_pos (by simpa using hge)]
        exact iff_of_true rfl ⟨hside, fun hlt => absurd hlt (Nat.not_lt.mpr hge)⟩
    · -- the test goes the wrong way: one of the two searches ends here, and the other does not
      have htest := reading_lt_iff_of_not_iff hs hn he hside
      refine iff_of_false ?_ fun h => hside h.1
      rcases Nat.lt_or_ge (e + d) n with hlt | hge
      · rw [if_pos (by simpa using mt htest.mp (Nat.not_le.mpr hlt)), if_neg (by simpa using hlt)]
        exact fun heq => absurd heq.symm (by simp)
      · rw [if_neg (by simpa using htest.mpr hge), if_pos (by simpa using hge)]
        exact fun heq => absurd heq (by simp)

end

end Ko6.Lib
