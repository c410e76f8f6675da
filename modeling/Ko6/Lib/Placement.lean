import Mathlib.Data.List.Perm.Subperm
import Mathlib.Data.List.Range
import Mathlib.Tactic.Common

set_option autoImplicit false

/-!
# Lib: placing keys along their probe sequences

Keys are put into `n` places, one after the other; each takes the first place of its
probe sequence that is still free.  A key is lost when none of its `n` tries finds one.
-/

namespace Ko6.Lib.OpenTable

section
variable {K : Type} (probe : K → Nat → Nat) (n : Nat)

/-- The first try of a key that comes to a free place. -/
def freeTry (taken : List Nat) (k : K) : Option Nat :=
  (List.range n).find? fun t => probe k t ∉ taken

/-- The keys that are lost when `ks` are put in this order. -/
def lost : List K → List Nat → List K
  | [], _ => []
  | k :: ks, taken =>
    match freeTry probe n taken k with
    | some t => lost ks (probe k t :: taken)
    | none => k :: lost ks taken

end

section
variable {K : Type} {probe : K → Nat → Nat} {n t : Nat} {taken : List Nat} {k : K} {ks : List K}

theorem freeTry_eq_some : freeTry probe n taken k = some t ↔
    t < n ∧ probe k t ∉ taken ∧ ∀ u, u < t → probe k u ∈ taken := by
  unfold freeTry
  rw [List.find?_range_eq_some]
  simp only [decide_eq_true_eq, List.mem_range, decide_not, Bool.not_not, Bool.not_eq_true',
    decide_eq_false_iff_not]
  tauto

theorem freeTry_eq_none : freeTry probe n taken k = none ↔ ∀ u, u < n → probe k u ∈ taken := by
  unfold freeTry
  rw [List.find?_eq_none]
  simp

theorem lost_subset : ∀ (ks : List K) (taken : List Nat), ∀ k ∈ lost probe n ks taken, k ∈ ks
  | [], _, k, hk => hk
  | k' :: ks, taken, k, hk => by
    unfold lost at hk
    cases htry : freeTry probe n taken k' with
    | some t =>
      simp only [htry] at hk
      exact List.mem_cons_of_mem k' (lost_subset ks _ k hk)
    | none =>
      simp only [htry, List.mem_cons] at hk
      rcases hk with rfl | hk
      · exact List.mem_cons_self
      · exact List.mem_cons_of_mem k' (lost_subset ks taken k hk)

/-- When the tries of each key come to all places, and there are enough of them, no key
is lost. -/
theorem lost_eq_nil (hcover : ∀ k ∈ ks, ((List.range n).map (probe k)).Perm (List.range n))
    (hroom : taken.length + ks.length ≤ n) : lost probe n ks taken = [] := by
  induction ks generalizing taken with
  | nil => rfl
  | cons k ks ih =>
    have hk := hcover k List.mem_cons_self
    unfold lost
    cases htry : freeTry probe n taken k with
    | some t =>
      simp only
      refine ih (fun k' hk' => hcover k' (List.mem_cons_of_mem k hk')) ?_
      rw [List.length_cons] at hroom ⊢
      omega
    | none =>
      -- all places would be taken
      have hall := freeTry_eq_none.mp htry
      have hsub : List.range n ⊆ taken := by
        intro h hh
        obtain ⟨u, hu, rfl⟩ := List.mem_map.mp (hk.mem_iff.mpr hh)
        exact hall u (List.mem_range.mp hu)
      have hle := (List.nodup_range.subperm hsub).length_le
      rw [List.length_range] at hle
      rw [List.length_cons] at hroom
      omega

end

end Ko6.Lib.OpenTable
