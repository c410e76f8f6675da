import Mathlib.Data.List.Basic
import Mathlib.Tactic.Common

set_option autoImplicit false

/-!
# Lib: a search that fills a bounded array

The items of a list are examined in order and what some of them give is put in the next
place of an array of `max` places.  An examination can fail, and so does a result for which
there is no place.
-/

namespace Ko6.Lib

section
variable {α β : Type}

/-- The results of `examine` behind those in `acc`. -/
def collect (max : Nat) (examine : α → Option (Option β)) : List α → List β → Option (List β)
  | [], acc => some acc
  | a :: as, acc =>
    match examine a with
    | none => none
    | some none => collect max examine as acc
    | some (some b) => if acc.length < max then collect max examine as (acc ++ [b]) else none

/-- A search succeeds when no examination fails and the results have places. -/
theorem collect_eq_some_iff {max : Nat} {examine : α → Option (Option β)} {as : List α}
    {acc out : List β} (hacc : acc.length ≤ max) :
    collect max examine as acc = some out ↔
      (∀ a ∈ as, (examine a).isSome) ∧ out = acc ++ as.filterMap (fun a => (examine a).join) ∧
        out.length ≤ max := by
  induction as generalizing acc with
  | nil =>
    simp only [collect, Option.some.injEq, List.filterMap_nil, List.append_nil]
    constructor
    · rintro rfl
      exact ⟨fun a ha => absurd ha List.not_mem_nil, rfl, hacc⟩
    · exact fun h => h.2.1.symm
  | cons a as ih =>
    rcases hexamine : examine a with - | - | b
    · simp only [collect, hexamine, reduceCtorEq, false_iff]
      intro h
      have hsome := h.1 a List.mem_cons_self
      rw [hexamine] at hsome
      exact nomatch hsome
    · simp only [collect, hexamine, ih hacc, List.forall_mem_cons, Option.isSome_some,
        List.filterMap_cons, Option.join_some, true_and]
    · by_cases hlt : acc.length < max
      · have hsnoc : (acc ++ [b]).length ≤ max := by
          rw [List.length_append]
          exact hlt
        simp only [collect, hexamine, if_pos hlt, ih hsnoc, List.forall_mem_cons,
          Option.isSome_some, List.filterMap_cons, Option.join_some, true_and,
          List.append_assoc, List.singleton_append]
      · simp only [collect, hexamine, if_neg hlt, reduceCtorEq, false_iff]
        rintro ⟨-, rfl, hlen⟩
        simp only [hexamine, List.filterMap_cons, Option.join_some, List.length_append,
          List.length_cons] at hlen
        omega

/-- A search that starts with an empty array. -/
theorem collect_nil_eq_some_iff {max : Nat} {examine : α → Option (Option β)} {as : List α}
    {out : List β} : collect max examine as [] = some out ↔
      (∀ a ∈ as, (examine a).isSome) ∧ out = as.filterMap (fun a => (examine a).join) ∧
        out.length ≤ max :=
  collect_eq_some_iff (Nat.zero_le max)

/-- Selecting less gives no more. -/
theorem length_filterMap_le {f g : α → Option β} {as : List α}
    (h : ∀ a ∈ as, (g a).isSome → (f a).isSome) :
    (as.filterMap g).length ≤ (as.filterMap f).length := by
  induction as with
  | nil => exact Nat.le_refl _
  | cons a as ih =>
    rw [List.forall_mem_cons] at h
    have hle := ih h.2
    cases hg : g a with
    | none =>
      rw [List.filterMap_cons_none hg, List.filterMap_cons]
      cases f a with
      | none => exact hle
      | some b => exact Nat.le_trans hle (Nat.le_succ _)
    | some b =>
      obtain ⟨b', hf⟩ := Option.isSome_iff_exists.mp (h.1 (by rw [hg]; rfl))
      rw [List.filterMap_cons_some hg, List.filterMap_cons_some hf]
      exact Nat.succ_le_succ hle

/-- Of two selections, one of which selects the same results but fewer, the results are the
same when it selects as many. -/
theorem filterMap_eq_iff {f g : α → Option β} {as : List α}
    (h : ∀ a ∈ as, ∀ b, g a = some b → f a = some b) :
    as.filterMap f = as.filterMap g ↔ ∀ a ∈ as, (f a).isSome → (g a).isSome := by
  induction as with
  | nil => exact ⟨fun _ a ha => absurd ha List.not_mem_nil, fun _ => rfl⟩
  | cons a as ih =>
    rw [List.forall_mem_cons] at h
    have htail := ih h.2
    rw [List.forall_mem_cons]
    cases hg : g a with
    | some b =>
      rw [List.filterMap_cons_some hg, List.filterMap_cons_some (h.1 b hg), List.cons.injEq,
        htail]
      exact ⟨fun hall => ⟨fun _ => rfl, hall.2⟩, fun hall => ⟨rfl, hall.2⟩⟩
    | none =>
      rw [List.filterMap_cons_none hg]
      cases hf : f a with
      | none =>
        rw [List.filterMap_cons_none hf, htail]
        exact ⟨fun hall => ⟨fun hsome => hsome, hall⟩, fun hall => hall.2⟩
      | some b =>
        rw [List.filterMap_cons_some hf]
        refine ⟨fun heq => ?_, fun hall => absurd (hall.1 rfl) (by simp)⟩
        have hle : (as.filterMap g).length ≤ (as.filterMap f).length :=
          length_filterMap_le fun x hx hsome => by
            obtain ⟨y, hy⟩ := Option.isSome_iff_exists.mp hsome
            rw [h.2 x hx y hy]
            rfl
        rw [← heq, List.length_cons] at hle
        omega

end

end Ko6.Lib
