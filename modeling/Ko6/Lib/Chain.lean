import Mathlib.Data.List.Basic
import Mathlib.Logic.Function.Basic
import Mathlib.Tactic.Common

set_option autoImplicit false

/-!
# Lib: chains

A chain is a list that is threaded through a `next` field and ends with a null link.
The elements of a chain are determined by its first link; an element is put in front
or unlinked by changing one link.
-/

namespace Ko6.Lib

variable {α : Type} {null : α}

/-- The elements from a link on. -/
def Chain (null : α) (next : α → α) : α → List α → Prop
  | a, [] => a = null
  | a, x :: l => a = x ∧ x ≠ null ∧ Chain null next (next x) l

namespace Chain

variable {next next' : α → α} {a x : α} {l l' : List α}

theorem ne_null (h : Chain null next a l) (hx : x ∈ l) : x ≠ null := by
  induction l generalizing a with
  | nil => exact absurd hx List.not_mem_nil
  | cons y l ih =>
    obtain ⟨-, hy, hl⟩ := h
    rcases List.mem_cons.mp hx with rfl | hx
    · exact hy
    · exact ih hl hx

/-- A link is the first of one chain. -/
theorem unique (h : Chain null next a l) (h' : Chain null next a l') : l = l' := by
  induction l generalizing a l' with
  | nil =>
    cases l' with
    | nil => rfl
    | cons y l' => exact absurd (h'.1.symm.trans h) h'.2.1
  | cons x l ih =>
    cases l' with
    | nil => exact absurd (h.1.symm.trans h') h.2.1
    | cons y l' =>
      obtain ⟨rfl, -, hl⟩ := h
      obtain ⟨rfl, -, hl'⟩ := h'
      rw [ih hl hl']

/-- A chain depends on the links of its elements. -/
theorem congr (h : Chain null next a l) (heq : ∀ x ∈ l, next' x = next x) :
    Chain null next' a l := by
  induction l generalizing a with
  | nil => exact h
  | cons x l ih =>
    obtain ⟨rfl, hx, hl⟩ := h
    refine ⟨rfl, hx, ?_⟩
    rw [heq a List.mem_cons_self]
    exact ih hl fun y hy => heq y (List.mem_cons_of_mem a hy)

/-- A new first element. -/
theorem cons (h : Chain null next a l) (hx : x ≠ null) (hnext : next' x = a)
    (heq : ∀ y ∈ l, next' y = next y) : Chain null next' x (x :: l) :=
  ⟨rfl, hx, by rw [hnext]; exact h.congr heq⟩

/-- An element is unlinked from behind its predecessor. -/
theorem unlink {p : α} {l₁ l₂ : List α}
    (h : Chain null next a (l₁ ++ p :: x :: l₂)) (hnd : (l₁ ++ p :: x :: l₂).Nodup)
    (heq : ∀ y, y ≠ p → y ≠ x → next' y = next y) (hp : next' p = next x) :
    Chain null next' a (l₁ ++ p :: l₂) := by
  induction l₁ generalizing a with
  | nil =>
    obtain ⟨rfl, hpne, rfl, -, hl⟩ := h
    rw [List.nil_append, List.nodup_cons, List.nodup_cons, List.mem_cons, not_or] at hnd
    refine ⟨rfl, hpne, ?_⟩
    rw [hp]
    refine hl.congr fun y hy => heq y ?_ ?_
    · exact fun he => hnd.1.2 (he ▸ hy)
    · exact fun he => hnd.2.1 (he ▸ hy)
  | cons y l₁ ih =>
    obtain ⟨rfl, hyne, hl⟩ := h
    rw [List.cons_append, List.nodup_cons] at hnd
    refine ⟨rfl, hyne, ?_⟩
    rw [heq a (fun he => hnd.1 (by simp [he])) (fun he => hnd.1 (by simp [he]))]
    exact ih hl hnd.2

/-- A new last element. -/
theorem snoc {m : α} (h : Chain null next a (l ++ [m])) (hx : x ≠ null) (hm : next' m = x)
    (hnext : next' x = null) (heq : ∀ y ∈ l, next' y = next y) :
    Chain null next' a (l ++ [m] ++ [x]) := by
  induction l generalizing a with
  | nil => exact ⟨h.1, h.2.1, hm, hx, hnext⟩
  | cons y l ih =>
    obtain ⟨rfl, hy, hl⟩ := h
    refine ⟨rfl, hy, ?_⟩
    rw [heq a List.mem_cons_self]
    exact ih hl fun z hz => heq z (List.mem_cons_of_mem a hz)

/-- What follows an element of a chain is a chain. -/
theorem of_append {l₁ l₂ : List α} (h : Chain null next a (l₁ ++ x :: l₂)) :
    Chain null next x (x :: l₂) := by
  induction l₁ generalizing a with
  | nil =>
    obtain ⟨rfl, hx, hl⟩ := h
    exact ⟨rfl, hx, hl⟩
  | cons y l₁ ih => exact ih h.2.2

/-- A chain comes to its end: no element is in it twice. -/
theorem nodup (h : Chain null next a l) : l.Nodup := by
  induction l generalizing a with
  | nil => exact List.nodup_nil
  | cons x l ih =>
    obtain ⟨rfl, hx, hl⟩ := h
    refine List.nodup_cons.mpr ⟨fun hmem => ?_, ih hl⟩
    -- from a second occurrence on, the chain would be as long as from the first one on
    obtain ⟨l₁, l₂, rfl⟩ := List.append_of_mem hmem
    have hfirst : Chain null next a (a :: (l₁ ++ a :: l₂)) := ⟨rfl, hx, hl⟩
    have hlen := congrArg List.length (hfirst.unique hl.of_append)
    simp only [List.length_cons, List.length_append] at hlen
    omega

end Chain

end Ko6.Lib
