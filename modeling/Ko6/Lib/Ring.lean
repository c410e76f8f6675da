import Mathlib

set_option autoImplicit false

/-!
# Lib: circular doubly linked lists

A ring is a root cell and the cells of a sequence, closed on the root, with the
two links of every pair of neighbours pointing at each other.  The module is
about the link functions `next` and `prev` alone: it says which change of the
links inserts or removes one cell, and leaves the writing of memory to the
program that does it.
-/

namespace Ko6.Lib

variable {α : Type}

/-- Neighbours in `l` point at each other. -/
def Linked (next prev : α → α) (l : List α) : Prop :=
  l.IsChain fun a b => next a = b ∧ prev b = a

/-- The cells of `xs`, in order, closed on the root `r`. -/
structure IsRing (next prev : α → α) (r : α) (xs : List α) : Prop where
  linked : Linked next prev ((r :: xs) ++ [r])
  nodup : (r :: xs).Nodup

section
variable {next prev next' prev' : α → α} {r : α}

theorem Linked.congr {l : List α} (h : Linked next prev l)
    (hnext : ∀ a ∈ l.dropLast, next' a = next a)
    (hprev : ∀ b ∈ l.tail, prev' b = prev b) : Linked next' prev' l := by
  induction l with
  | nil => exact List.isChain_nil
  | cons a l ih =>
    cases l with
    | nil => exact List.isChain_singleton a
    | cons b l =>
      obtain ⟨⟨hab, hba⟩, hrest⟩ := List.isChain_cons_cons.mp h
      refine List.isChain_cons_cons.mpr ⟨⟨?_, ?_⟩, ih hrest ?_ ?_⟩
      · rw [hnext a (by simp), hab]
      · rw [hprev b (by simp), hba]
      · intro c hc
        exact hnext c (by simp [hc])
      · intro c hc
        exact hprev c (by simpa using Or.inr hc)

/-- Two linked lists joined by one pair of neighbours. -/
theorem linked_append {l m : List α} (hl : l ≠ []) (hm : m ≠ []) :
    Linked next prev (l ++ m) ↔ Linked next prev l ∧ Linked next prev m ∧
      next (l.getLast hl) = m.head hm ∧ prev (m.head hm) = l.getLast hl := by
  unfold Linked
  rw [List.isChain_append]
  simp only [List.getLast?_eq_some_getLast hl, List.head?_eq_some_head hm, Option.mem_def,
    Option.some.injEq, forall_eq']

/-! ## Reading a ring -/

theorem getLast_mem_ring (r : α) (ys zs : List α) :
    (r :: ys).getLast (by simp) ∈ r :: (ys ++ zs) := by
  have hmem := List.getLast_mem (l := r :: ys) (by simp)
  rcases List.mem_cons.mp hmem with he | he
  · rw [he]
    simp
  · simp [he]

theorem head_mem_ring (r : α) (ys zs : List α) :
    (zs ++ [r]).head (by simp) ∈ r :: (ys ++ zs) := by
  have hmem := List.head_mem (l := zs ++ [r]) (by simp)
  rcases List.mem_append.mp hmem with he | he
  · simp [he]
  · rw [List.mem_singleton.mp he]
    simp

/-- Every cut of the sequence shows a pair of neighbours. -/
theorem IsRing.cut {ys zs : List α} (h : IsRing next prev r (ys ++ zs)) :
    next ((r :: ys).getLast (by simp)) = (zs ++ [r]).head (by simp) ∧
      prev ((zs ++ [r]).head (by simp)) = (r :: ys).getLast (by simp) := by
  have hl := h.linked
  rw [List.cons_append, List.append_assoc, ← List.cons_append,
    linked_append (by simp) (by simp)] at hl
  exact hl.2.2

/-- The neighbours at a cut are cells of the ring. -/
theorem IsRing.cut_mem {ys zs : List α} {p : α} (h : IsRing next prev r (ys ++ zs))
    (hp : (r :: ys).getLast (by simp) = p) :
    p ∈ r :: (ys ++ zs) ∧ next p ∈ r :: (ys ++ zs) := by
  subst hp
  rw [h.cut.1]
  exact ⟨getLast_mem_ring r ys zs, head_mem_ring r ys zs⟩

theorem IsRing.next_root {xs : List α} (h : IsRing next prev r xs) :
    next r = (xs ++ [r]).head (by simp) := by
  have h₀ : IsRing next prev r ([] ++ xs) := h
  exact h₀.cut.1

theorem IsRing.prev_root {xs : List α} (h : IsRing next prev r xs) :
    prev r = (r :: xs).getLast (by simp) := by
  have h₀ : IsRing next prev r (xs ++ []) := by simpa using h
  simpa using h₀.cut.2

/-- The link from a member to the rest of the ring. -/
theorem IsRing.next_mem {ys zs : List α} {x : α}
    (h : IsRing next prev r (ys ++ x :: zs)) :
    next x = (zs ++ [r]).head (by simp) := by
  have h₀ : IsRing next prev r ((ys ++ [x]) ++ zs) := by simpa using h
  have hcut := h₀.cut.1
  have hlast : (r :: (ys ++ [x])).getLast (by simp) = x := by
    rw [List.getLast_cons (by simp), List.getLast_concat]
  rwa [hlast] at hcut

theorem IsRing.prev_mem {ys zs : List α} {x : α}
    (h : IsRing next prev r (ys ++ x :: zs)) :
    prev x = (r :: ys).getLast (by simp) := by
  simpa using h.cut.2

/-- The root points at itself exactly when the ring is empty. -/
theorem IsRing.next_root_eq_iff {xs : List α} (h : IsRing next prev r xs) :
    next r = r ↔ xs = [] := by
  rw [h.next_root]
  cases xs with
  | nil => simp
  | cons x xs =>
    have hr : r ∉ x :: xs := (List.nodup_cons.mp h.nodup).1
    simp only [List.cons_append, List.head_cons, reduceCtorEq, iff_false]
    rintro rfl
    exact hr (by simp)

/-- A ring depends on the links of its own cells only. -/
theorem IsRing.congr {xs : List α} (h : IsRing next prev r xs)
    (hnext : ∀ a ∈ r :: xs, next' a = next a)
    (hprev : ∀ a ∈ r :: xs, prev' a = prev a) : IsRing next' prev' r xs := by
  refine ⟨h.linked.congr ?_ ?_, h.nodup⟩
  · intro a ha
    rw [List.dropLast_concat] at ha
    exact hnext a ha
  · intro a ha
    refine hprev a ?_
    simp only [List.cons_append, List.tail_cons, List.mem_append, List.mem_singleton] at ha
    rcases ha with ha | ha
    · exact List.mem_cons_of_mem _ ha
    · simp [ha]

/-- A walk along `next` up to the root has one sequence only. -/
theorem linked_unique {xs ys : List α} {a : α} (hxs : Linked next prev (a :: (xs ++ [r])))
    (hys : Linked next prev (a :: (ys ++ [r]))) (hrx : r ∉ xs) (hry : r ∉ ys) : xs = ys := by
  induction xs generalizing a ys with
  | nil =>
    cases ys with
    | nil => rfl
    | cons y ys =>
      have h1 := (List.isChain_cons_cons.mp hxs).1.1
      have h2 := (List.isChain_cons_cons.mp hys).1.1
      exact absurd (h1.symm.trans h2) (fun e => hry (by simp [e]))
  | cons x xs ih =>
    cases ys with
    | nil =>
      have h1 := (List.isChain_cons_cons.mp hxs).1.1
      have h2 := (List.isChain_cons_cons.mp hys).1.1
      exact absurd (h2.symm.trans h1) (fun e => hrx (by simp [e]))
    | cons y ys =>
      obtain ⟨h1, hxs'⟩ := List.isChain_cons_cons.mp hxs
      obtain ⟨h2, hys'⟩ := List.isChain_cons_cons.mp hys
      obtain rfl : x = y := h1.1.symm.trans h2.1
      rw [ih hxs' hys' (fun h => hrx (by simp [h])) (fun h => hry (by simp [h]))]

theorem IsRing.unique {xs ys : List α} (h : IsRing next prev r xs)
    (h' : IsRing next prev r ys) : xs = ys :=
  linked_unique h.linked h'.linked (List.nodup_cons.mp h.nodup).1 (List.nodup_cons.mp h'.nodup).1

theorem isRing_nil (hnext : next r = r) (hprev : prev r = r) : IsRing next prev r [] :=
  ⟨List.isChain_cons_cons.mpr ⟨⟨hnext, hprev⟩, List.isChain_singleton r⟩, by simp⟩

/-! ## Changing one pair of neighbours -/

/-- In a list without repetition the last element is not among the others. -/
theorem getLast_not_mem_dropLast {l : List α} (hl : l ≠ []) (h : l.Nodup) :
    l.getLast hl ∉ l.dropLast := by
  have hsplit := List.dropLast_append_getLast hl
  rw [← hsplit] at h
  intro hmem
  exact (List.nodup_append.mp h).2.2 _ hmem _ (by simp) rfl

theorem head_not_mem_tail {l : List α} (hl : l ≠ []) (h : l.Nodup) :
    l.head hl ∉ l.tail := by
  cases l with
  | nil => exact absurd rfl hl
  | cons a l => exact (List.nodup_cons.mp h).1

/-- The two halves of a ring keep their links when only the pair at the cut
changes. -/
theorem halves_linked {ys zs : List α} {p q : α} (hnd : (r :: (ys ++ zs)).Nodup)
    (hp : (r :: ys).getLast (by simp) = p) (hq : (zs ++ [r]).head (by simp) = q)
    (hnext : ∀ a ∈ r :: (ys ++ zs), a ≠ p → next' a = next a)
    (hprev : ∀ a ∈ r :: (ys ++ zs), a ≠ q → prev' a = prev a)
    (hl : Linked next prev (r :: ys)) (hm : Linked next prev (zs ++ [r])) :
    Linked next' prev' (r :: ys) ∧ Linked next' prev' (zs ++ [r]) := by
  have hdisj : ∀ a ∈ r :: ys, a ∉ zs := by
    rw [← List.cons_append] at hnd
    intro a ha hz
    exact (List.nodup_append.mp hnd).2.2 a ha a hz rfl
  have hndL : (r :: ys).Nodup := by
    rw [← List.cons_append] at hnd
    exact (List.nodup_append.mp hnd).1
  have hndM : (zs ++ [r]).Nodup := by
    rw [← List.cons_append] at hnd
    refine List.nodup_append.mpr ⟨(List.nodup_append.mp hnd).2.1, by simp, ?_⟩
    intro a ha b hb hab
    rw [List.mem_singleton] at hb
    exact hdisj r (by simp) (by rw [← hb, ← hab]; exact ha)
  have hpmem : p ∈ r :: ys := hp ▸ List.getLast_mem _
  have hqmem : q ∈ zs ++ [r] := hq ▸ List.head_mem _
  constructor
  · refine hl.congr ?_ ?_
    · intro a ha
      have hmem : a ∈ r :: ys := List.dropLast_subset _ ha
      refine hnext a (by simpa [or_assoc] using Or.inl (List.mem_cons.mp hmem)) ?_
      rintro rfl
      exact getLast_not_mem_dropLast (by simp) hndL (hp ▸ ha)
    · intro a ha
      simp only [List.tail_cons] at ha
      refine hprev a (by simp [ha]) ?_
      rintro rfl
      rcases List.mem_append.mp hqmem with hz | hz
      · exact hdisj a (by simp [ha]) hz
      · rw [List.mem_singleton.mp hz] at ha
        exact (List.nodup_cons.mp hndL).1 ha
  · refine hm.congr ?_ ?_
    · intro a ha
      rw [List.dropLast_concat] at ha
      refine hnext a (by simp [ha]) ?_
      rintro rfl
      exact hdisj a hpmem ha
    · intro a ha
      have hmem : a ∈ zs ++ [r] := List.mem_of_mem_tail ha
      refine hprev a ?_ ?_
      · rcases List.mem_append.mp hmem with hz | hz
        · simp [hz]
        · simp [List.mem_singleton.mp hz]
      · rintro rfl
        exact head_not_mem_tail (by simp) hndM (hq ▸ ha)

/-- Inserting `x` at a cut of the sequence. -/
theorem IsRing.insert {ys zs : List α} {x p q : α} (h : IsRing next prev r (ys ++ zs))
    (hx : x ∉ r :: (ys ++ zs))
    (hp : (r :: ys).getLast (by simp) = p) (hq : (zs ++ [r]).head (by simp) = q)
    (hpx : next' p = x) (hxp : prev' x = p) (hxq : next' x = q) (hqx : prev' q = x)
    (hnext : ∀ a ∈ r :: (ys ++ zs), a ≠ p → next' a = next a)
    (hprev : ∀ a ∈ r :: (ys ++ zs), a ≠ q → prev' a = prev a) :
    IsRing next' prev' r (ys ++ x :: zs) := by
  have hl := h.linked
  rw [List.cons_append, List.append_assoc, ← List.cons_append,
    linked_append (by simp) (by simp)] at hl
  obtain ⟨hl', hm'⟩ := halves_linked h.nodup hp hq hnext hprev hl.1 hl.2.1
  refine ⟨?_, ?_⟩
  · rw [List.cons_append, List.append_assoc, List.cons_append, ← List.cons_append,
      linked_append (by simp) (by simp)]
    refine ⟨hl', ?_, ?_, ?_⟩
    · rw [← List.singleton_append, linked_append (by simp) (by simp)]
      refine ⟨List.isChain_singleton x, hm', ?_, ?_⟩
      · simpa [hq] using hxq
      · simpa [hq] using hqx
    · rw [hp]
      exact hpx
    · rw [hp]
      exact hxp
  · have hperm : (r :: (ys ++ x :: zs)).Perm (x :: r :: (ys ++ zs)) :=
      (@List.perm_middle _ x (r :: ys) zs).trans (List.Perm.refl _)
    exact hperm.nodup_iff.mpr (List.nodup_cons.mpr ⟨hx, h.nodup⟩)

/-- Removing `x`, whose neighbours then point at each other. -/
theorem IsRing.remove {ys zs : List α} {x : α} (h : IsRing next prev r (ys ++ x :: zs))
    (hpq : next' (prev x) = next x) (hqp : prev' (next x) = prev x)
    (hnext : ∀ a ∈ r :: (ys ++ zs), a ≠ prev x → next' a = next a)
    (hprev : ∀ a ∈ r :: (ys ++ zs), a ≠ next x → prev' a = prev a) :
    IsRing next' prev' r (ys ++ zs) := by
  have hl := h.linked
  rw [List.cons_append, List.append_assoc, List.cons_append, ← List.cons_append,
    linked_append (by simp) (by simp)] at hl
  have hm : Linked next prev (zs ++ [r]) := by
    have := hl.2.1
    rw [← List.singleton_append, linked_append (by simp) (by simp)] at this
    exact this.2.1
  have hperm : (r :: (ys ++ x :: zs)).Perm (x :: r :: (ys ++ zs)) :=
    (@List.perm_middle _ x (r :: ys) zs).trans (List.Perm.refl _)
  have hnd : (r :: (ys ++ zs)).Nodup := (List.nodup_cons.mp (hperm.nodup_iff.mp h.nodup)).2
  obtain ⟨hl', hm'⟩ := halves_linked hnd h.prev_mem.symm h.next_mem.symm hnext hprev hl.1 hm
  refine ⟨?_, hnd⟩
  rw [List.cons_append, List.append_assoc, ← List.cons_append,
    linked_append (by simp) (by simp), ← h.prev_mem, ← h.next_mem]
  exact ⟨hl', hm', hpq, hqp⟩

/-- Putting `y` in the place of `x`: the neighbours of `x` now point at `y`, and `y` at them. -/
theorem IsRing.replace {ys zs : List α} {x y : α} (h : IsRing next prev r (ys ++ x :: zs))
    (hy : y ∉ r :: (ys ++ x :: zs))
    (hpy : next' (prev x) = y) (hyp : prev' y = prev x) (hyq : next' y = next x)
    (hqy : prev' (next x) = y)
    (hnext : ∀ a ∈ r :: (ys ++ zs), a ≠ prev x → next' a = next a)
    (hprev : ∀ a ∈ r :: (ys ++ zs), a ≠ next x → prev' a = prev a) :
    IsRing next' prev' r (ys ++ y :: zs) := by
  classical
  -- in between, the neighbours of `x` point at each other
  have hrem : IsRing (Function.update next (prev x) (next x))
      (Function.update prev (next x) (prev x)) r (ys ++ zs) := by
    refine h.remove (Function.update_self ..) (Function.update_self ..) ?_ ?_
    · intro a _ ha
      exact Function.update_of_ne ha ..
    · intro a _ ha
      exact Function.update_of_ne ha ..
  refine hrem.insert ?_ h.prev_mem.symm h.next_mem.symm hpy hyp hyq hqy ?_ ?_
  · intro hmem
    refine hy ?_
    simp only [List.mem_cons, List.mem_append] at hmem ⊢
    tauto
  · intro a ha hne
    rw [Function.update_of_ne hne]
    exact hnext a ha hne
  · intro a ha hne
    rw [Function.update_of_ne hne]
    exact hprev a ha hne

end

end Ko6.Lib
