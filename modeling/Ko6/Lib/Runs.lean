import Mathlib.Data.List.Infix
import Mathlib.Tactic.Common

set_option autoImplicit false

/-!
# Lib: what holds all along a run

A run folds a step function over a list.  When a condition on each step tells whether a
property survives it, the property holds all along a run exactly when all steps meet the
condition.
-/

namespace Ko6.Lib

variable {σ α : Type} {step : σ → α → σ}

/-- `P` holds after each prefix of the run if and only if each step meets `K`; `I` is
what a step may rely on. -/
theorem foldl_prefix_iff {I P : σ → Prop} {K : σ → α → Prop} (as : List α)
    (hP : ∀ s, I s → P s) (hkeep : ∀ s, ∀ a ∈ as, I s → K s a → I (step s a))
    (hbreak : ∀ s, ∀ a ∈ as, I s → ¬ K s a → ¬ P (step s a)) {s : σ} (hs : I s) :
    (∀ done, done <+: as → P (done.foldl step s)) ↔
      ∀ done a, done ++ [a] <+: as → K (done.foldl step s) a := by
  induction as generalizing s with
  | nil =>
    constructor
    · intro _ done a hpre
      exact absurd (List.prefix_nil.mp hpre) (by simp)
    · intro _ done hpre
      rw [List.prefix_nil.mp hpre]
      exact hP s hs
  | cons a as ih =>
    have htail := fun s => ih (s := s) (fun s b hb => hkeep s b (List.mem_cons_of_mem a hb))
      (fun s b hb => hbreak s b (List.mem_cons_of_mem a hb))
    have hmem : a ∈ a :: as := List.mem_cons_self
    constructor
    · intro hall done b hpre
      have hk : K s a := by
        by_contra hk
        exact hbreak s a hmem hs hk (hall [a] (List.prefix_append [a] as))
      have hrest := (htail (step s a) (hkeep s a hmem hs hk)).mp fun done hpre =>
        hall (a :: done) (List.cons_prefix_cons.mpr ⟨rfl, hpre⟩)
      cases done with
      | nil =>
        rw [List.nil_append, List.cons_prefix_cons] at hpre
        rw [hpre.1]
        exact hk
      | cons c done =>
        rw [List.cons_append, List.cons_prefix_cons] at hpre
        rw [hpre.1]
        exact hrest done b hpre.2
    · intro hall done hpre
      have hk : K s a := hall [] a (List.prefix_append [a] as)
      have hrest := (htail (step s a) (hkeep s a hmem hs hk)).mpr fun done b hpre =>
        hall (a :: done) b (List.cons_prefix_cons.mpr ⟨rfl, hpre⟩)
      cases done with
      | nil => exact hP s hs
      | cons c done =>
        rw [List.cons_prefix_cons] at hpre
        rw [hpre.1]
        exact hrest done hpre.2

/-- A run that can always be followed by one more step is followed all along. -/
theorem exists_following {β : Type} {P : Nat → β → Prop} {R : β → β → Prop} (h0 : ∃ x, P 0 x)
    (hstep : ∀ i x, P i x → ∃ y, P (i + 1) y ∧ R x y) :
    ∃ f : Nat → β, (∀ i, P i (f i)) ∧ ∀ i, R (f i) (f (i + 1)) := by
  choose next hnext hR using hstep
  obtain ⟨x0, hx0⟩ := h0
  let f : (i : Nat) → {x // P i x} := Nat.rec ⟨x0, hx0⟩ fun i x => ⟨next i x x.2, hnext i x x.2⟩
  refine ⟨fun i => (f i).1, fun i => (f i).2, fun i => ?_⟩
  exact hR i (f i).1 (f i).2

end Ko6.Lib
