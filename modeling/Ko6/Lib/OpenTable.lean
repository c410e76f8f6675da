import Mathlib.Logic.Function.Basic
import Mathlib.Tactic.Common

set_option autoImplicit false

/-!
# Open addressing

A table of `n` slots, each empty, freed or holding a key with its value, and for
each key a sequence of positions.  A search for a key follows its sequence and
crosses the freed slots, so an empty slot may not stand before the key.  Nothing is
asked of the sequences themselves: they may come back to a position, and different
keys may share theirs.

Two changes are enough for all that such tables do: `erase` frees the slot of a key,
and `put` gives a key a slot of its sequence and frees the one it had.
-/

namespace Ko6.Lib.OpenTable

inductive Slot (K V : Type) where
  | empty
  | freed
  | live (k : K) (v : V)

section
variable {K V : Type}

/-- A search for a key finds it, and at one place. -/
structure WF (n : Nat) (probe : K → Nat → Nat) (s : Nat → Slot K V) : Prop where
  placed : ∀ h k v, h < n → s h = .live k v →
    ∃ t, t < n ∧ probe k t = h ∧ ∀ u, u < t → s (probe k u) ≠ .empty
  unique : ∀ h g k v w, h < n → g < n → s h = .live k v → s g = .live k w → h = g

/-- The table gives `k` the value `v`. -/
def Binds (n : Nat) (s : Nat → Slot K V) (k : K) (v : V) : Prop := ∃ h, h < n ∧ s h = .live k v

/-- The table is the finite map `m`. -/
def Maps (n : Nat) (s : Nat → Slot K V) (m : K → Option V) : Prop :=
  ∀ k v, Binds n s k v ↔ m k = some v

variable {n g h t : Nat} {probe : K → Nat → Nat} {s : Nat → Slot K V} {k k' : K} {v v' w : V}
  {m : K → Option V}

/-- The value of a key that the search has found. -/
theorem Maps.found (hm : Maps n s m) (hh : h < n) (hlive : s h = .live k v) : m k = some v :=
  (hm k v).mp ⟨h, hh, hlive⟩

/-- A search that ends at an empty slot, or after `n` tries, without having met the key:
the key is not in the table. -/
theorem Maps.absent (hm : Maps n s m) (hw : WF n probe s)
    (hmiss : ∀ u, u < t → ∀ v, s (probe k u) ≠ .live k v)
    (hend : t = n ∨ s (probe k t) = .empty) : m k = none := by
  by_contra hne
  obtain ⟨v, hv⟩ := Option.ne_none_iff_exists'.mp hne
  obtain ⟨h, hh, hlive⟩ := (hm k v).mpr hv
  obtain ⟨t', ht', rfl, hearly⟩ := hw.placed h k v hh hlive
  have hle : t ≤ t' := by
    by_contra hlt
    exact hmiss t' (by omega) v hlive
  rcases hend with rfl | hempty
  · omega
  · rcases Nat.lt_or_ge t t' with hlt | hge
    · exact hearly t hlt hempty
    · obtain rfl : t = t' := by omega
      rw [hempty] at hlive
      exact absurd hlive (by simp)

/-! ## Changes -/

variable [DecidableEq K]

/-- The slot of `k` is freed. -/
def erase (s : Nat → Slot K V) (k : K) : Nat → Slot K V := fun h =>
  match s h with
  | .live k' v => if k' = k then .freed else .live k' v
  | slot => slot

/-- `k` gets the slot `g`. -/
def put (s : Nat → Slot K V) (g : Nat) (k : K) (v : V) : Nat → Slot K V :=
  Function.update (erase s k) g (.live k v)

theorem erase_eq_empty : erase s k h = .empty ↔ s h = .empty := by
  unfold erase
  cases hs : s h with
  | empty => simp
  | freed => simp
  | live k' v =>
    simp only [reduceCtorEq, iff_false]
    split <;> simp

theorem erase_eq_live : erase s k h = .live k' v ↔ k' ≠ k ∧ s h = .live k' v := by
  unfold erase
  cases hs : s h with
  | empty => simp
  | freed => simp
  | live k₁ v₁ =>
    simp only
    split
    · rename_i he
      simp only [reduceCtorEq, Slot.live.injEq, false_iff, not_and]
      rintro hne rfl
      exact absurd he hne
    · rename_i hne
      simp only [Slot.live.injEq]
      constructor
      · rintro ⟨rfl, rfl⟩
        exact ⟨hne, rfl, rfl⟩
      · rintro ⟨-, rfl, rfl⟩
        exact ⟨rfl, rfl⟩

/-- A table without `k` does not change. -/
theorem erase_of_absent (hk : ∀ v, s h ≠ .live k v) : erase s k h = s h := by
  unfold erase
  cases hs : s h with
  | empty => rfl
  | freed => rfl
  | live k' v =>
    simp only
    rw [if_neg]
    rintro rfl
    exact hk v hs

theorem put_self : put s g k v g = .live k v := Function.update_self ..

theorem put_of_ne (hne : h ≠ g) : put s g k v h = erase s k h := Function.update_of_ne hne ..

theorem put_ne_empty (hs : s h ≠ .empty) : put s g k v h ≠ .empty := by
  by_cases hg : h = g
  · rw [hg, put_self]
    simp
  · rw [put_of_ne hg, ne_eq, erase_eq_empty]
    exact hs

theorem WF.erase (hw : WF n probe s) (k : K) : WF n probe (erase s k) := by
  constructor
  · intro h k' v hh hlive
    obtain ⟨-, hlive⟩ := erase_eq_live.mp hlive
    obtain ⟨t, ht, hp, hearly⟩ := hw.placed h k' v hh hlive
    refine ⟨t, ht, hp, fun u hu => ?_⟩
    rw [ne_eq, erase_eq_empty]
    exact hearly u hu
  · intro h g k' v w hh hg hl hl'
    exact hw.unique h g k' v w hh hg (erase_eq_live.mp hl).2 (erase_eq_live.mp hl').2

theorem binds_erase : Binds n (erase s k) k' v ↔ k' ≠ k ∧ Binds n s k' v := by
  unfold Binds
  constructor
  · rintro ⟨h, hh, hlive⟩
    obtain ⟨hne, hlive⟩ := erase_eq_live.mp hlive
    exact ⟨hne, h, hh, hlive⟩
  · rintro ⟨hne, h, hh, hlive⟩
    exact ⟨h, hh, erase_eq_live.mpr ⟨hne, hlive⟩⟩

/-- `k` may be put at the try `t` if no empty slot stands before. -/
theorem WF.put (hw : WF n probe s) (ht : t < n) (hp : probe k t = g)
    (hearly : ∀ u, u < t → s (probe k u) ≠ .empty) : WF n probe (put s g k v) := by
  constructor
  · intro h k' v' hh hlive
    by_cases hg : h = g
    · subst hg
      rw [put_self, Slot.live.injEq] at hlive
      obtain ⟨rfl, -⟩ := hlive
      exact ⟨t, ht, hp, fun u hu => put_ne_empty (hearly u hu)⟩
    · rw [put_of_ne hg] at hlive
      obtain ⟨-, hlive⟩ := erase_eq_live.mp hlive
      obtain ⟨t', ht', hp', hearly'⟩ := hw.placed h k' v' hh hlive
      exact ⟨t', ht', hp', fun u hu => put_ne_empty (hearly' u hu)⟩
  · intro h h' k' v' w hh hh' hl hl'
    by_cases hg : h = g <;> by_cases hg' : h' = g
    · exact hg.trans hg'.symm
    · rw [hg, put_self, Slot.live.injEq] at hl
      rw [put_of_ne hg'] at hl'
      exact absurd hl.1.symm (erase_eq_live.mp hl').1
    · rw [hg', put_self, Slot.live.injEq] at hl'
      rw [put_of_ne hg] at hl
      exact absurd hl'.1.symm (erase_eq_live.mp hl).1
    · rw [put_of_ne hg] at hl
      rw [put_of_ne hg'] at hl'
      exact hw.unique h h' k' v' w hh hh' (erase_eq_live.mp hl).2 (erase_eq_live.mp hl').2

theorem binds_put (hg : g < n) (hfit : ∀ k' v', s g = .live k' v' → k' = k) :
    Binds n (put s g k v) k' v' ↔ k' = k ∧ v' = v ∨ k' ≠ k ∧ Binds n s k' v' := by
  unfold Binds
  constructor
  · rintro ⟨h, hh, hlive⟩
    by_cases hhg : h = g
    · rw [hhg, put_self, Slot.live.injEq] at hlive
      exact .inl ⟨hlive.1.symm, hlive.2.symm⟩
    · rw [put_of_ne hhg] at hlive
      obtain ⟨hne, hlive⟩ := erase_eq_live.mp hlive
      exact .inr ⟨hne, h, hh, hlive⟩
  · rintro (⟨rfl, rfl⟩ | ⟨hne, h, hh, hlive⟩)
    · exact ⟨g, hg, put_self⟩
    · refine ⟨h, hh, ?_⟩
      rw [put_of_ne, erase_eq_live]
      · exact ⟨hne, hlive⟩
      · rintro rfl
        exact hne (hfit k' v' hlive)

theorem Maps.erase (hm : Maps n s m) (k : K) : Maps n (erase s k) (Function.update m k none) := by
  intro k' v
  rw [binds_erase, hm k' v]
  by_cases hk : k' = k
  · rw [hk, Function.update_self]
    simp
  · rw [Function.update_of_ne hk]
    simp [hk]

theorem Maps.put (hm : Maps n s m) (hg : g < n) (hfit : ∀ k' v', s g = .live k' v' → k' = k) :
    Maps n (put s g k v) (Function.update m k (some v)) := by
  intro k' v'
  rw [binds_put hg hfit, hm k' v']
  by_cases hk : k' = k
  · rw [hk, Function.update_self]
    simp [eq_comm]
  · rw [Function.update_of_ne hk]
    simp [hk]

end

end Ko6.Lib.OpenTable
