import Mathlib

set_option autoImplicit false

/-!
# Lib: tilings of an interval by a chain of tiles

A chain of tiles is the list of their first points; `next` tells where each tile
ends, which is where the following one begins.  A tile can be cut in two and two
neighbours can be glued, and what lies in different tiles is apart.
-/

namespace Ko6.Lib

/-- `bs` are the first points of the tiles from `a` to `e`. -/
inductive Tiles {α : Type} [LT α] (next : α → α) : α → List α → α → Prop where
  | nil (a : α) : Tiles next a [] a
  | cons {a e : α} {bs : List α} : a < next a → Tiles next (next a) bs e →
      Tiles next a (a :: bs) e

namespace Tiles

section
variable {α : Type} [LinearOrder α] {next next' : α → α} {a b c e : α} {bs xs ys : List α}

theorem eq_of_nil (h : Tiles next a [] e) : a = e := by
  cases h
  rfl

theorem eq_head (h : Tiles next a (b :: bs) e) : a = b := by
  cases h
  rfl

theorem le (h : Tiles next a bs e) : a ≤ e := by
  induction h with
  | nil a => exact le_refl a
  | cons hlt _ ih => exact hlt.le.trans ih

theorem lo (h : Tiles next a bs e) : ∀ b ∈ bs, a ≤ b := by
  induction h with
  | nil a => exact fun b hb => absurd hb List.not_mem_nil
  | cons hlt _ ih =>
    intro b hb
    cases hb with
    | head => exact le_refl _
    | tail _ hb => exact hlt.le.trans (ih b hb)

theorem hi (h : Tiles next a bs e) : ∀ b ∈ bs, b < next b ∧ next b ≤ e := by
  induction h with
  | nil a => exact fun b hb => absurd hb List.not_mem_nil
  | cons hlt hrest ih =>
    intro b hb
    cases hb with
    | head => exact ⟨hlt, hrest.le⟩
    | tail _ hb => exact ih b hb

/-- The chain depends on the ends of its tiles only. -/
theorem congr (h : Tiles next a bs e) (heq : ∀ b ∈ bs, next' b = next b) :
    Tiles next' a bs e := by
  induction h with
  | nil a => exact .nil a
  | cons hlt _ ih =>
    have hhead := heq _ List.mem_cons_self
    apply Tiles.cons
    · rwa [hhead]
    · rw [hhead]
      exact ih fun b hb => heq b (List.mem_cons_of_mem _ hb)

theorem append (h : Tiles next a xs b) (h' : Tiles next b ys e) :
    Tiles next a (xs ++ ys) e := by
  induction h with
  | nil a => exact h'
  | cons hlt _ ih => exact .cons hlt (ih h')

theorem split : ∀ {a : α} (xs : List α), Tiles next a (xs ++ ys) e →
    ∃ b, Tiles next a xs b ∧ Tiles next b ys e := by
  intro a xs
  induction xs generalizing a with
  | nil => exact fun h => ⟨a, .nil a, h⟩
  | cons x xs ih =>
    intro h
    rw [List.cons_append] at h
    cases h with
    | cons hlt hrest =>
      obtain ⟨b, hxs, hys⟩ := ih hrest
      exact ⟨b, .cons hlt hxs, hys⟩

/-- The chain around one of its tiles. -/
theorem split_cons (xs : List α) (h : Tiles next a (xs ++ b :: ys) e) :
    Tiles next a xs b ∧ b < next b ∧ Tiles next (next b) ys e := by
  obtain ⟨b', hxs, hys⟩ := split xs h
  cases hys with
  | cons hlt hrest => exact ⟨hxs, hlt, hrest⟩

/-- What holds at the start and passes over each tile holds at every tile. -/
theorem forall_mem {P : α → Prop} (h : Tiles next a bs e) (ha : P a)
    (hstep : ∀ b ∈ bs, P b → P (next b)) : ∀ b ∈ bs, P b := by
  induction h with
  | nil a => exact fun b hb => absurd hb List.not_mem_nil
  | cons _ _ ih =>
    intro b hb
    cases hb with
    | head => exact ha
    | tail _ hb =>
      apply ih (hstep _ List.mem_cons_self ha) (fun c hc => hstep c (List.mem_cons_of_mem _ hc))
      exact hb

/-- A tile ends at the end or where another one begins. -/
theorem next_mem (h : Tiles next a bs e) : ∀ b ∈ bs, next b = e ∨ next b ∈ bs := by
  induction h with
  | nil a => exact fun b hb => absurd hb List.not_mem_nil
  | cons _ hrest ih =>
    intro b hb
    cases hb with
    | head =>
      cases hrest with
      | nil => exact .inl rfl
      | cons => exact .inr (List.mem_cons_of_mem _ List.mem_cons_self)
    | tail _ hb => exact (ih b hb).imp_right (List.mem_cons_of_mem _)

/-- Every point lies in a tile. -/
theorem exists_mem {x : α} (h : Tiles next a bs e) (ha : a ≤ x) (hx : x < e) :
    ∃ b ∈ bs, b ≤ x ∧ x < next b := by
  induction h with
  | nil a => exact absurd hx ha.not_gt
  | @cons a e bs hlt _ ih =>
    rcases lt_or_ge x (next a) with hin | hout
    · exact ⟨a, List.mem_cons_self, ha, hin⟩
    · obtain ⟨b, hb, hlo, hhi⟩ := ih hout hx
      exact ⟨b, List.mem_cons_of_mem _ hb, hlo, hhi⟩

/-- An interval of points with a property lies in one tile, when the tiles that have such
points are followed by tiles that have none at their beginning. -/
theorem interval_mem {P : α → Prop} {s t : α} (h : Tiles next a bs e) (ha : a ≤ s) (hst : s < t)
    (hte : t ≤ e) (hP : ∀ x, s ≤ x → x < t → P x)
    (hnext : ∀ b ∈ bs, next b ∈ bs → (∃ x, b ≤ x ∧ x < next b ∧ P x) → ¬ P (next b)) :
    ∃ b ∈ bs, b ≤ s ∧ t ≤ next b := by
  obtain ⟨b, hb, hlo, hhi⟩ := h.exists_mem ha (hst.trans_le hte)
  refine ⟨b, hb, hlo, ?_⟩
  by_contra hlt
  have hlt : next b < t := not_le.mp hlt
  rcases h.next_mem b hb with hend | hmem
  · exact (hlt.trans_le hte).ne hend
  · exact hnext b hb hmem ⟨s, hlo, hhi, hP s le_rfl hst⟩ (hP _ hhi.le hlt)

theorem nodup (h : Tiles next a bs e) : bs.Nodup := by
  induction h with
  | nil a => exact List.nodup_nil
  | cons hlt hrest ih =>
    exact List.nodup_cons.mpr ⟨fun hmem => (hrest.lo _ hmem).not_gt hlt, ih⟩

/-- Of two tiles one ends before the other begins. -/
theorem apart (h : Tiles next a bs e) (hb : b ∈ bs) (hc : c ∈ bs) (hne : b ≠ c) :
    next b ≤ c ∨ next c ≤ b := by
  induction h with
  | nil a => exact absurd hb List.not_mem_nil
  | cons _ hrest ih =>
    cases hb with
    | head =>
      cases hc with
      | head => exact absurd rfl hne
      | tail _ hc => exact .inl (hrest.lo c hc)
    | tail _ hb =>
      cases hc with
      | head => exact .inr (hrest.lo b hb)
      | tail _ hc => exact ih hb hc

/-- The tile at `b` is cut at `c`. -/
theorem cut (xs : List α) (h : Tiles next a (xs ++ b :: ys) e) (hbc : b < c)
    (hc : c < next b) (hb' : next' b = c) (hc' : next' c = next b)
    (hother : ∀ x ∈ xs ++ ys, next' x = next x) : Tiles next' a (xs ++ b :: c :: ys) e := by
  obtain ⟨hxs, -, hys⟩ := split_cons xs h
  apply (hxs.congr fun x hx => hother x (List.mem_append_left _ hx)).append
  apply Tiles.cons
  · rwa [hb']
  · rw [hb']
    apply Tiles.cons
    · rwa [hc']
    · rw [hc']
      exact hys.congr fun x hx => hother x (List.mem_append_right _ hx)

/-- The tile at `b` and the following one become one. -/
theorem glue (xs : List α) (h : Tiles next a (xs ++ b :: c :: ys) e)
    (hb' : next' b = next c) (hother : ∀ x ∈ xs ++ ys, next' x = next x) :
    Tiles next' a (xs ++ b :: ys) e := by
  obtain ⟨hxs, hlt, hrest⟩ := split_cons xs h
  cases hrest with
  | cons hlt' hys =>
    apply (hxs.congr fun x hx => hother x (List.mem_append_left _ hx)).append
    apply Tiles.cons
    · rw [hb']
      exact hlt.trans hlt'
    · rw [hb']
      exact hys.congr fun x hx => hother x (List.mem_append_right _ hx)

end

/-- Tiles of a least length: how many there can be. -/
theorem length_mul_le {next : Nat → Nat} {a e k : Nat} {bs : List Nat}
    (h : Tiles next a bs e) (hk : ∀ b ∈ bs, b + k ≤ next b) : a + k * bs.length ≤ e := by
  induction h with
  | nil a => simp
  | cons _ _ ih =>
    have hhead := hk _ List.mem_cons_self
    have hrest := ih fun b hb => hk b (List.mem_cons_of_mem _ hb)
    rw [List.length_cons, Nat.mul_succ]
    omega

end Tiles

end Ko6.Lib
