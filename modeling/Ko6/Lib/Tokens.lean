import Mathlib.Data.List.Basic
import Mathlib.Tactic.Common

set_option autoImplicit false

/-!
# Lib: the tokens of a list

The tokens of a list are its maximal runs of elements that are not separators, in
order.  They are the non-empty parts of Lean's own `List.splitOnP`.  `tokenStarts` gives
the places where they begin.
-/

namespace Ko6.Lib

variable {α : Type} {p : α → Bool} {c : α} {l w : List α}

/-- The maximal runs without a separator. -/
def tokens (p : α → Bool) (l : List α) : List (List α) := (l.splitOnP p).filter (!·.isEmpty)

theorem tokens_nil : tokens p ([] : List α) = [] := by
  rw [tokens, List.splitOnP_nil]
  rfl

/-- A separator cuts the tokens in two parts. -/
theorem tokens_append_sep (l l' : List α) (hc : p c = true) :
    tokens p (l ++ c :: l') = tokens p l ++ tokens p l' := by
  rw [tokens, List.splitOnP_append_cons l l' hc, List.filter_append]
  rfl

theorem tokens_cons_sep (hc : p c = true) : tokens p (c :: l) = tokens p l := by
  have h := tokens_append_sep [] l hc
  rwa [tokens_nil, List.nil_append, List.nil_append] at h

/-- A run without a separator is one token. -/
theorem tokens_word (hne : w ≠ []) (hw : ∀ c ∈ w, p c = false) : tokens p w = [w] := by
  rw [tokens, List.splitOnP_eq_singleton hw, List.filter_cons_of_pos (by simpa using hne)]
  rfl

theorem tokens_word_sep (hne : w ≠ []) (hw : ∀ c ∈ w, p c = false) (hc : p c = true) :
    tokens p (w ++ c :: l) = w :: tokens p l := by
  rw [tokens_append_sep w l hc, tokens_word hne hw]
  rfl

/-- Separators in front change nothing. -/
theorem tokens_seps_append (hw : ∀ c ∈ w, p c = true) : tokens p (w ++ l) = tokens p l := by
  induction w with
  | nil => rfl
  | cons c w ih =>
    rw [List.cons_append, tokens_cons_sep (hw c List.mem_cons_self),
      ih fun c hc => hw c (List.mem_cons_of_mem _ hc)]

/-- A list is a run of elements that pass a test, and a rest that begins with one
that does not. -/
theorem exists_run (q : α → Bool) (l : List α) : ∃ w rest, l = w ++ rest ∧
    (∀ c ∈ w, q c = true) ∧ (rest = [] ∨ ∃ c l', rest = c :: l' ∧ q c = false) := by
  induction l with
  | nil => exact ⟨[], [], rfl, fun c hc => absurd hc List.not_mem_nil, .inl rfl⟩
  | cons c l ih =>
    cases hc : q c with
    | false => exact ⟨[], c :: l, rfl, fun c hc => absurd hc List.not_mem_nil, .inr ⟨c, l, rfl, hc⟩⟩
    | true =>
      obtain ⟨w, rest, rfl, hw, hrest⟩ := ih
      refine ⟨c :: w, rest, rfl, fun x hx => ?_, hrest⟩
      rcases List.mem_cons.mp hx with rfl | hx
      · exact hc
      · exact hw x hx

/-- The tokens are parts of the list, -/
theorem sublist_of_mem_tokens {t : List α} (ht : t ∈ tokens p l) : List.Sublist t l := by
  have hsplit : ∀ t ∈ l.splitOnP p, List.Sublist t l := by
    clear ht
    induction l with
    | nil =>
      intro t ht
      rw [List.splitOnP_nil, List.mem_singleton] at ht
      rw [ht]
    | cons a l ih =>
      intro t ht
      rw [List.splitOnP_cons_eq_if_modifyHead] at ht
      obtain ⟨u, v, huv⟩ := List.exists_cons_of_ne_nil (List.splitOnP_ne_nil p l)
      rw [huv] at ht ih
      cases hpa : p a with
      | true =>
        rw [hpa, if_pos rfl] at ht
        rcases List.mem_cons.mp ht with rfl | ht
        · exact List.nil_sublist _
        · exact (ih t ht).cons a
      | false =>
        rw [hpa, if_neg (by decide), List.modifyHead_cons] at ht
        rcases List.mem_cons.mp ht with rfl | ht
        · exact (ih u List.mem_cons_self).cons_cons a
        · exact (ih t (List.mem_cons_of_mem u ht)).cons a
  exact hsplit t (List.mem_of_mem_filter ht)

/-- and their elements are elements of it. -/
theorem mem_of_mem_tokens {t : List α} (ht : t ∈ tokens p l) (hc : c ∈ t) : c ∈ l :=
  (sublist_of_mem_tokens ht).subset hc

theorem ne_nil_of_mem_tokens {t : List α} (ht : t ∈ tokens p l) : t ≠ [] := by
  rintro rfl
  have hne : (!([] : List α).isEmpty) = true := (List.mem_filter.mp ht).2
  exact absurd hne Bool.false_ne_true

/-- The tokens depend on the separators among the elements. -/
theorem tokens_congr {q : α → Bool} (h : ∀ c ∈ l, p c = q c) : tokens p l = tokens q l := by
  have hsplit : l.splitOnP p = l.splitOnP q := by
    induction l with
    | nil => rfl
    | cons a l ih =>
      rw [List.splitOnP_cons_eq_if_modifyHead, List.splitOnP_cons_eq_if_modifyHead,
        h a List.mem_cons_self, ih fun c hc => h c (List.mem_cons_of_mem a hc)]
  rw [tokens, tokens, hsplit]

/-! ## Places -/

/-- The places where the tokens begin, when the list stands at `i`; `inside` tells that the
element in front of it belongs to a token. -/
def tokenStarts (p : α → Bool) : Bool → Nat → List α → List Nat
  | _, _, [] => []
  | inside, i, c :: l =>
    if p c then tokenStarts p false (i + 1) l
    else if inside then tokenStarts p true (i + 1) l
    else i :: tokenStarts p true (i + 1) l

theorem tokenStarts_seps {i : Nat} (hw : ∀ c ∈ w, p c = true) :
    tokenStarts p false i (w ++ l) = tokenStarts p false (i + w.length) l := by
  induction w generalizing i with
  | nil => rfl
  | cons c w ih =>
    rw [List.cons_append, tokenStarts, if_pos (hw c List.mem_cons_self),
      ih fun c hc => hw c (List.mem_cons_of_mem _ hc), List.length_cons, Nat.add_assoc,
      Nat.add_comm 1]

/-- The rest of a token. -/
theorem tokenStarts_inside {i : Nat} (hw : ∀ c ∈ w, p c = false) :
    tokenStarts p true i (w ++ l) = tokenStarts p true (i + w.length) l := by
  induction w generalizing i with
  | nil => rfl
  | cons c w ih =>
    have hc : ¬ p c = true := by simp [hw c List.mem_cons_self]
    rw [List.cons_append, tokenStarts, if_neg hc, if_pos rfl,
      ih fun c hc => hw c (List.mem_cons_of_mem _ hc), List.length_cons, Nat.add_assoc,
      Nat.add_comm 1]

/-- A token begins at its first element. -/
theorem tokenStarts_word {i : Nat} (hne : w ≠ []) (hw : ∀ c ∈ w, p c = false) :
    tokenStarts p false i (w ++ l) = i :: tokenStarts p true (i + w.length) l := by
  obtain ⟨c, w, rfl⟩ := List.exists_cons_of_ne_nil hne
  have hc : ¬ p c = true := by simp [hw c List.mem_cons_self]
  rw [List.cons_append, tokenStarts, if_neg hc, if_neg (by decide),
    tokenStarts_inside fun c hc => hw c (List.mem_cons_of_mem _ hc), List.length_cons,
    Nat.add_assoc, Nat.add_comm 1]

theorem tokenStarts_congr {q : α → Bool} {inside : Bool} {i : Nat} (h : ∀ c ∈ l, p c = q c) :
    tokenStarts p inside i l = tokenStarts q inside i l := by
  induction l generalizing inside i with
  | nil => rfl
  | cons c l ih =>
    have hl : ∀ c ∈ l, p c = q c := fun c hc => h c (List.mem_cons_of_mem _ hc)
    simp only [tokenStarts, h c List.mem_cons_self, ih hl]

end Ko6.Lib
