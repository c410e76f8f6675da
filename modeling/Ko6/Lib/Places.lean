import Mathlib.Tactic.Common

set_option autoImplicit false

/-!
# Lib: numbers that each stand at one place

Places hold numbers, and 0 is a place that holds none.  A number in use that stands at
exactly one place is found, and what stands there can be given back without another place
that still refers to it.
-/

namespace Ko6.Lib

/-- What stands at a place is in use, and each number in use, 0 apart, stands at one place. -/
structure OnePlace {R : Type} (held : R → Nat) (inUse : Nat → Prop) : Prop where
  used : ∀ r, held r ≠ 0 → inUse (held r)
  found : ∀ m, m ≠ 0 → inUse m → ∃ r, held r = m
  once : ∀ r r', held r ≠ 0 → held r = held r' → r = r'

namespace OnePlace

variable {R : Type} {held held' : R → Nat} {inUse inUse' : Nat → Prop} {r r' : R} {m : Nat}

theorem congr (h : OnePlace held inUse) (hheld : ∀ x, held' x = held x)
    (hused : ∀ m, inUse' m ↔ inUse m) : OnePlace held' inUse' where
  used := fun x hx => by
    rw [hheld] at hx ⊢
    exact (hused _).mpr (h.used x hx)
  found := fun m hm hu => by
    obtain ⟨x, hx⟩ := h.found m hm ((hused m).mp hu)
    exact ⟨x, (hheld x).trans hx⟩
  once := fun x y hx hxy => by
    rw [hheld] at hx hxy
    rw [hheld] at hxy
    exact h.once x y hx hxy

/-- A number that was not in use, at a place that held none. -/
theorem add (h : OnePlace held inUse) (hfree : held r = 0) (hnew : ¬ inUse m)
    (hheld : held' r = m) (hother : ∀ x, x ≠ r → held' x = held x)
    (hused : ∀ n, inUse' n ↔ n = m ∨ inUse n) : OnePlace held' inUse' := by
  have hapart : ∀ x, held x = m → held x = 0 := fun x hx => by
    by_contra hne
    exact hnew (hx ▸ h.used x hne)
  refine ⟨fun x hx => (hused _).mpr ?_, fun n hn hu => ?_, fun x y hx hxy => ?_⟩
  · by_cases hxr : x = r
    · exact .inl (hxr ▸ hheld)
    · rw [hother x hxr] at hx ⊢
      exact .inr (h.used x hx)
  · rcases (hused n).mp hu with rfl | hu
    · exact ⟨r, hheld⟩
    · obtain ⟨x, hx⟩ := h.found n hn hu
      refine ⟨x, ?_⟩
      rw [hother x, hx]
      rintro rfl
      exact hn (hx ▸ hfree)
  · by_cases hxr : x = r
    · by_cases hyr : y = r
      · rw [hxr, hyr]
      · rw [hxr, hheld, hother y hyr] at hxy
        rw [hxr, hheld] at hx
        exact absurd (hxy.trans (hapart y hxy.symm)) hx
    · rw [hother x hxr] at hx hxy
      by_cases hyr : y = r
      · rw [hyr, hheld] at hxy
        exact absurd (hapart x hxy) hx
      · rw [hother y hyr] at hxy
        exact h.once x y hx hxy

/-- The number at a place is moved to one that held none. -/
theorem move (h : OnePlace held inUse) (r r' : R) (hfree : held r' = 0) (hr : held' r = 0)
    (hr' : held' r' = held r) (hother : ∀ x, x ≠ r → x ≠ r' → held' x = held x) :
    OnePlace held' inUse := by
  by_cases heq : r = r'
  · -- nothing is moved
    subst heq
    exact h.congr (fun x => by
      by_cases hx : x = r
      · rw [hx, hr']
      · exact hother x hx hx) fun _ => Iff.rfl
  -- where the number at a place has come from
  have hfrom : ∀ x, held' x ≠ 0 → ∃ y, held y = held' x ∧ (y = r ∧ x = r' ∨ y = x ∧ x ≠ r ∧ x ≠ r') := by
    intro x hx
    by_cases hxr : x = r
    · exact absurd (hxr ▸ hr) hx
    · by_cases hxr' : x = r'
      · exact ⟨r, by rw [hxr', hr'], .inl ⟨rfl, hxr'⟩⟩
      · exact ⟨x, (hother x hxr hxr').symm, .inr ⟨rfl, hxr, hxr'⟩⟩
  refine ⟨fun x hx => ?_, fun n hn hu => ?_, fun x y hx hxy => ?_⟩
  · obtain ⟨z, hz, -⟩ := hfrom x hx
    rw [← hz] at hx ⊢
    exact h.used z hx
  · obtain ⟨x, hx⟩ := h.found n hn hu
    by_cases hxr : x = r
    · exact ⟨r', by rw [hr', ← hxr, hx]⟩
    · refine ⟨x, ?_⟩
      rw [hother x hxr, hx]
      rintro rfl
      exact hn (hx ▸ hfree)
  · obtain ⟨z, hz, hzx⟩ := hfrom x hx
    obtain ⟨w, hw, hwy⟩ := hfrom y (hxy ▸ hx)
    have hzw := h.once z w (by rwa [hz]) (by rw [hz, hw, hxy])
    rcases hzx with ⟨hzr, hxr'⟩ | ⟨hzx, hxr, -⟩
    · rcases hwy with ⟨-, hyr'⟩ | ⟨hwy, hyr, -⟩
      · rw [hxr', hyr']
      · exact absurd (hwy.symm.trans (hzw.symm.trans hzr)) hyr
    · rcases hwy with ⟨hwr, -⟩ | ⟨hwy, -, -⟩
      · exact absurd (hzx.symm.trans (hzw.trans hwr)) hxr
      · exact hzx.symm.trans (hzw.trans hwy)

/-- Of two places that are not the same only one can hold a number other than 0. -/
theorem ne (h : OnePlace held inUse) (hne : r ≠ r') (hr : held r ≠ 0) : held r ≠ held r' :=
  fun heq => hne (h.once r r' hr heq)

end OnePlace

end Ko6.Lib
