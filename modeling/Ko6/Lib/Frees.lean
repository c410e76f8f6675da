import Mathlib.Data.List.Basic
import Mathlib.Logic.Function.Basic

set_option autoImplicit false

/-!
# Lib: what a program frees

A heap is a function from the addresses to the objects that are allocated.  To free an
address that has no object is a fault.  `Frees f h as bs` says that `f`, which owns the
addresses `as`, frees those of `bs`, each one once, and nothing else: it is stated for all
heaps that have the same objects at `as`, so that two programs that own different addresses
are put one after the other by `Frees.seq`.
-/

namespace Ko6.Lib

section
variable {α β : Type} [DecidableEq α]

/-- The heap without the object at `a`, where there must be one. -/
def freeAt (h : α → Option β) (a : α) : Option (α → Option β) :=
  if (h a).isSome then some (Function.update h a none) else none

/-- The heap without the objects at `as`. -/
def without (h : α → Option β) (as : List α) : α → Option β := fun a => if a ∈ as then none else h a

variable {h h' : α → Option β} {a : α} {as as' bs bs' : List α}

theorem without_of_mem (ha : a ∈ as) : without h as a = none := if_pos ha

theorem without_of_notMem (ha : a ∉ as) : without h as a = h a := if_neg ha

theorem without_nil : without h ([] : List α) = h := funext fun _ => without_of_notMem List.not_mem_nil

theorem without_append : without (without h as) bs = without h (as ++ bs) := by
  funext a
  by_cases ha : a ∈ bs
  · rw [without_of_mem ha, without_of_mem (List.mem_append_right _ ha)]
  · rw [without_of_notMem ha]
    by_cases ha' : a ∈ as
    · rw [without_of_mem ha', without_of_mem (List.mem_append_left _ ha')]
    · rw [without_of_notMem ha', without_of_notMem fun hab => (List.mem_append.mp hab).elim ha' ha]

theorem freeAt_eq (ha : h a ≠ none) : freeAt h a = some (without h [a]) := by
  rw [freeAt, if_pos (Option.isSome_iff_ne_none.mpr ha)]
  refine congrArg some (funext fun b => ?_)
  rw [Function.update_apply, without]
  simp only [List.mem_singleton]

/-- In every heap that has at `as` the objects of `h`, the program `f` frees with enough fuel
what is at `bs`, which are some of `as`. -/
structure Frees (f : Nat → (α → Option β) → Option (α → Option β)) (h : α → Option β)
    (as bs : List α) : Prop where
  alloc : ∀ a ∈ as, h a ≠ none
  sub : bs ⊆ as
  run : ∀ h', (∀ a ∈ as, h' a = h a) → ∃ n, ∀ fuel, n ≤ fuel → f fuel h' = some (without h' bs)

variable {f g : Nat → (α → Option β) → Option (α → Option β)}

theorem frees_nothing (hf : ∀ fuel h', f fuel h' = some h') : Frees f h [] [] where
  alloc := fun a ha => absurd ha List.not_mem_nil
  sub := List.nil_subset _
  run := fun h' _ => ⟨0, fun fuel _ => by rw [hf, without_nil]⟩

theorem frees_freeAt (ha : h a ≠ none) : Frees (fun _ h' => freeAt h' a) h [a] [a] where
  alloc := fun b hb => by
    rw [List.mem_singleton.mp hb]
    exact ha
  sub := fun _ hb => hb
  run := fun h' hh' => ⟨0, fun fuel _ => freeAt_eq (by rwa [hh' a List.mem_cons_self])⟩

namespace Frees

/-- The same program on the heaps that have at `as` the objects of `h`. -/
theorem congr (hf : Frees f h as bs)
    (heq : ∀ h', (∀ a ∈ as, h' a = h a) → ∀ fuel, g fuel h' = f fuel h') : Frees g h as bs where
  alloc := hf.alloc
  sub := hf.sub
  run := fun h' hh' => by
    obtain ⟨n, hn⟩ := hf.run h' hh'
    exact ⟨n, fun fuel hfuel => (heq h' hh' fuel).trans (hn fuel hfuel)⟩

/-- A program that reads what it owns first. -/
theorem read {γ : Type} {get : (α → Option β) → Option γ} {x : γ}
    {k : γ → Nat → (α → Option β) → Option (α → Option β)} (hk : Frees (k x) h as bs)
    (hget : ∀ h', (∀ a ∈ as, h' a = h a) → get h' = some x) :
    Frees (fun fuel h' => get h' >>= fun x => k x fuel h') h as bs :=
  hk.congr fun h' hh' fuel => by rw [hget h' hh', Option.bind_eq_bind, Option.bind_some]

/-- A program that takes one unit of fuel for itself. -/
theorem succ (hf : Frees (fun fuel => f (fuel + 1)) h as bs) : Frees f h as bs where
  alloc := hf.alloc
  sub := hf.sub
  run := fun h' hh' => by
    obtain ⟨n, hn⟩ := hf.run h' hh'
    refine ⟨n + 1, fun fuel hfuel => ?_⟩
    obtain ⟨fuel, rfl⟩ : ∃ k, fuel = k + 1 := ⟨fuel - 1, by omega⟩
    exact hn fuel (Nat.le_of_succ_le_succ hfuel)

/-- Two programs one after the other, which own different addresses. -/
theorem seq (hf : Frees f h as bs) (hg : Frees g h as' bs') (hdisj : ∀ a ∈ as, a ∉ as') :
    Frees (fun fuel h' => f fuel h' >>= g fuel) h (as ++ as') (bs ++ bs') where
  alloc := fun a ha => (List.mem_append.mp ha).elim (hf.alloc a) (hg.alloc a)
  sub := List.append_subset.mpr ⟨fun _ ha => List.mem_append_left _ (hf.sub ha),
    fun _ ha => List.mem_append_right _ (hg.sub ha)⟩
  run := fun h' hh' => by
    obtain ⟨n, hn⟩ := hf.run h' fun a ha => hh' a (List.mem_append_left _ ha)
    -- what the first one frees is not what the second one owns
    obtain ⟨n', hn'⟩ := hg.run (without h' bs) fun a ha => by
      rw [without_of_notMem fun hb => hdisj a (hf.sub hb) ha]
      exact hh' a (List.mem_append_right _ ha)
    refine ⟨max n n', fun fuel hfuel => ?_⟩
    rw [hn fuel (Nat.le_trans (Nat.le_max_left _ _) hfuel), Option.bind_eq_bind, Option.bind_some,
      hn' fuel (Nat.le_trans (Nat.le_max_right _ _) hfuel), without_append]

/-- A program that owns more, which it leaves there. -/
theorem leave (hg : Frees g h as' bs) (halloc : ∀ a ∈ as, h a ≠ none) : Frees g h (as ++ as') bs where
  alloc := fun a ha => (List.mem_append.mp ha).elim (halloc a) (hg.alloc a)
  sub := fun _ ha => List.mem_append_right _ (hg.sub ha)
  run := fun h' hh' => hg.run h' fun a ha => hh' a (List.mem_append_right _ ha)

/-- The program frees all that it owns exactly when nothing is left out. -/
theorem all_iff (hf : Frees f h as bs) :
    (∃ n, ∀ fuel, n ≤ fuel → f fuel h = some (without h as)) ↔ as ⊆ bs := by
  obtain ⟨n, hn⟩ := hf.run h fun _ _ => rfl
  constructor
  · rintro ⟨n', hn'⟩ a ha
    have heq : without h as = without h bs :=
      Option.some.inj ((hn' (max n n') (Nat.le_max_right _ _)).symm.trans
        (hn (max n n') (Nat.le_max_left _ _)))
    by_contra hb
    apply hf.alloc a ha
    rw [← without_of_notMem (h := h) hb, ← heq, without_of_mem ha]
  · intro hsub
    have heq : without h as = without h bs := funext fun a => by
      by_cases ha : a ∈ as
      · rw [without_of_mem ha, without_of_mem (hsub ha)]
      · rw [without_of_notMem ha, without_of_notMem fun hb => ha (hf.sub hb)]
    exact ⟨n, fun fuel hfuel => (hn fuel hfuel).trans (congrArg some heq.symm)⟩

end Frees

end

end Ko6.Lib
