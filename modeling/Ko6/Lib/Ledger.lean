import Mathlib.Data.List.Basic
import Mathlib.Logic.Function.Basic

set_option autoImplicit false

/-!
# A ledger of what is allocated and freed

Things of a type `α` are allocated and freed; an allocator may hand out the same thing
again once it is back.  The log of the calls, the last one first, says what is held.
The cells of a table own what they hold: all that is held is in one cell, and all that
is in no cell has been freed as often as it has been allocated.
-/

namespace Ko6.Lib.Ledger

/-- A call of the allocator. -/
inductive Event (α : Type) where
  | alloc (a : α)
  | free (a : α)
  deriving DecidableEq

section
variable {α : Type} [DecidableEq α] {log : List (Event α)} {a b : α}

/-- `a` has been allocated and not freed since. -/
def Held (log : List (Event α)) (a : α) : Prop :=
  log.count (.alloc a) = log.count (.free a) + 1

/-- Each allocation of `a` has been freed once. -/
def Settled (log : List (Event α)) (a : α) : Prop :=
  log.count (.alloc a) = log.count (.free a)

instance : Decidable (Held log a) := inferInstanceAs (Decidable (_ = _))

instance : Decidable (Settled log a) := inferInstanceAs (Decidable (_ = _))

/-- Only what is held is freed. -/
def Sound : List (Event α) → Prop
  | [] => True
  | .alloc _ :: log => Sound log
  | .free a :: log => Held log a ∧ Sound log

theorem Settled.not_held (hs : Settled log a) : ¬ Held log a := by
  unfold Settled at hs
  unfold Held
  omega

theorem settled_nil : Settled [] a := rfl

theorem held_alloc_self : Held (.alloc a :: log) a ↔ Settled log a := by
  simp [Held, Settled]

theorem settled_free_self : Settled (.free a :: log) a ↔ Held log a := by
  simp [Held, Settled]

theorem held_alloc_of_ne (hab : a ≠ b) : Held (.alloc a :: log) b ↔ Held log b := by
  simp [Held, hab]

theorem settled_alloc_of_ne (hab : a ≠ b) : Settled (.alloc a :: log) b ↔ Settled log b := by
  simp [Settled, hab]

theorem held_free_of_ne (hab : a ≠ b) : Held (.free a :: log) b ↔ Held log b := by
  simp [Held, hab]

theorem settled_free_of_ne (hab : a ≠ b) : Settled (.free a :: log) b ↔ Settled log b := by
  simp [Settled, hab]

end

/-! ## Cells that own what they hold -/

section
variable {α ι : Type} [DecidableEq α] {cells : ι → Option α} {log : List (Event α)} {i j : ι}
  {a : α}

/-- What the cells hold is what the log says is held. -/
structure Accounted (cells : ι → Option α) (log : List (Event α)) : Prop where
  sound : Sound log
  held : ∀ i a, cells i = some a → Held log a
  settled : ∀ a, (∀ i, cells i ≠ some a) → Settled log a

/-- And no two cells hold the same. -/
structure Owns (cells : ι → Option α) (log : List (Event α)) : Prop extends
    Accounted cells log where
  inj : ∀ i j a, cells i = some a → cells j = some a → i = j

theorem Owns.nil : Owns (fun _ : ι => (none : Option α)) [] where
  sound := trivial
  held _ _ h := absurd h (by simp)
  settled _ _ := settled_nil
  inj _ _ _ h := absurd h (by simp)

/-- `a` is held, and no cell has it: it will never be freed. -/
def Lost (cells : ι → Option α) (log : List (Event α)) (a : α) : Prop :=
  Held log a ∧ ∀ i, cells i ≠ some a

theorem Accounted.not_lost (ha : Accounted cells log) : ¬ Lost cells log a :=
  fun hl => (ha.settled a hl.2).not_held hl.1

/-- What no cell holds and is not held can be allocated. -/
theorem Owns.settled_of_not_held (ho : Owns cells log) (ha : ¬ Held log a) : Settled log a :=
  ho.settled a fun i hi => ha (ho.held i a hi)

variable [DecidableEq ι]

/-- A cell is moved to an empty one. -/
theorem Owns.move (ho : Owns cells log) (hj : cells j = none) :
    Owns (Function.update (Function.update cells i none) j (cells i)) log := by
  have hcell : ∀ k b, Function.update (Function.update cells i none) j (cells i) k = some b →
      (k = j ∧ cells i = some b) ∨ (k ≠ j ∧ k ≠ i ∧ cells k = some b) := by
    intro k b hk
    by_cases hkj : k = j
    · rw [hkj, Function.update_self] at hk
      exact .inl ⟨hkj, hk⟩
    · rw [Function.update_of_ne hkj] at hk
      by_cases hki : k = i
      · rw [hki, Function.update_self] at hk
        exact absurd hk (by simp)
      · rw [Function.update_of_ne hki] at hk
        exact .inr ⟨hkj, hki, hk⟩
  refine ⟨⟨ho.sound, fun k b hk => ?_, fun b hb => ?_⟩, fun k l b hk hl => ?_⟩
  · obtain ⟨-, h⟩ | ⟨-, -, h⟩ := hcell k b hk
    · exact ho.held i b h
    · exact ho.held k b h
  · refine ho.settled b fun k hk => ?_
    by_cases hki : k = i
    · refine hb j ?_
      rw [Function.update_self, ← hki, hk]
    · have hkj : k ≠ j := by
        rintro rfl
        rw [hk] at hj
        exact absurd hj (by simp)
      refine hb k ?_
      rw [Function.update_of_ne hkj, Function.update_of_ne hki, hk]
  · obtain ⟨hkj, hkb⟩ | ⟨-, hki, hkb⟩ := hcell k b hk
    · obtain ⟨hlj, -⟩ | ⟨-, hli, hlb⟩ := hcell l b hl
      · exact hkj.trans hlj.symm
      · exact absurd (ho.inj l i b hlb hkb) hli
    · obtain ⟨-, hlb⟩ | ⟨-, -, hlb⟩ := hcell l b hl
      · exact absurd (ho.inj k i b hkb hlb) hki
      · exact ho.inj k l b hkb hlb

/-- Something new is put into an empty cell. -/
theorem Owns.alloc (ho : Owns cells log) (hj : cells j = none) (ha : ¬ Held log a) :
    Owns (Function.update cells j (some a)) (.alloc a :: log) := by
  have hcell : ∀ k b, Function.update cells j (some a) k = some b →
      (k = j ∧ a = b) ∨ (k ≠ j ∧ a ≠ b ∧ cells k = some b) := by
    intro k b hk
    by_cases hkj : k = j
    · rw [hkj, Function.update_self] at hk
      exact .inl ⟨hkj, Option.some.inj hk⟩
    · rw [Function.update_of_ne hkj] at hk
      refine .inr ⟨hkj, ?_, hk⟩
      rintro rfl
      exact ha (ho.held k a hk)
  refine ⟨⟨ho.sound, fun k b hk => ?_, fun b hb => ?_⟩, fun k l b hk hl => ?_⟩
  · obtain ⟨-, rfl⟩ | ⟨-, hab, h⟩ := hcell k b hk
    · exact held_alloc_self.mpr (ho.settled_of_not_held ha)
    · exact (held_alloc_of_ne hab).mpr (ho.held k b h)
  · have hab : a ≠ b := by
      rintro rfl
      exact hb j (Function.update_self ..)
    refine (settled_alloc_of_ne hab).mpr (ho.settled b fun k hk => hb k ?_)
    have hkj : k ≠ j := by
      rintro rfl
      rw [hk] at hj
      exact absurd hj (by simp)
    rw [Function.update_of_ne hkj, hk]
  · obtain ⟨hkj, hka⟩ | ⟨-, hka, hkb⟩ := hcell k b hk
    · obtain ⟨hlj, -⟩ | ⟨-, hla, -⟩ := hcell l b hl
      · exact hkj.trans hlj.symm
      · exact absurd hka hla
    · obtain ⟨-, hla⟩ | ⟨-, -, hlb⟩ := hcell l b hl
      · exact absurd hla hka
      · exact ho.inj k l b hkb hlb

/-- What a cell holds is freed and taken out. -/
theorem Owns.free (ho : Owns cells log) (hi : cells i = some a) :
    Owns (Function.update cells i none) (.free a :: log) := by
  have hcell : ∀ k b, Function.update cells i none k = some b → a ≠ b ∧ cells k = some b := by
    intro k b hk
    have hki : k ≠ i := by
      rintro rfl
      rw [Function.update_self] at hk
      exact absurd hk (by simp)
    rw [Function.update_of_ne hki] at hk
    refine ⟨?_, hk⟩
    rintro rfl
    exact hki (ho.inj k i a hk hi)
  refine ⟨⟨⟨ho.held i a hi, ho.sound⟩, fun k b hk => ?_, fun b hb => ?_⟩, fun k l b hk hl => ?_⟩
  · obtain ⟨hab, h⟩ := hcell k b hk
    exact (held_free_of_ne hab).mpr (ho.held k b h)
  · by_cases hab : a = b
    · rw [← hab]
      exact settled_free_self.mpr (ho.held i a hi)
    · refine (settled_free_of_ne hab).mpr (ho.settled b fun k hk => hb k ?_)
      have hki : k ≠ i := by
        rintro rfl
        exact hab (Option.some.inj (hi.symm.trans hk))
      rw [Function.update_of_ne hki, hk]
  · exact ho.inj k l b (hcell k b hk).2 (hcell l b hl).2

/-- What a table may do with its cells and the allocator. -/
inductive Change (cells : ι → Option α) (log : List (Event α)) :
    (ι → Option α) → List (Event α) → Prop
  | keep : Change cells log cells log
  | move (i j : ι) (hj : cells j = none) :
      Change cells log (Function.update (Function.update cells i none) j (cells i)) log
  | alloc (j : ι) (a : α) (hj : cells j = none) (ha : ¬ Held log a) :
      Change cells log (Function.update cells j (some a)) (.alloc a :: log)
  | free (i : ι) (a : α) (hi : cells i = some a) :
      Change cells log (Function.update cells i none) (.free a :: log)

variable {cells' : ι → Option α} {log' : List (Event α)}

theorem Change.owns (hc : Change cells log cells' log') (ho : Owns cells log) :
    Owns cells' log' := by
  cases hc with
  | keep => exact ho
  | move i j hj => exact ho.move hj
  | alloc j a hj ha => exact ho.alloc hj ha
  | free i a hi => exact ho.free hi

/-- Empty cells that stay empty leave the allocator alone. -/
theorem Change.log_eq (hc : Change cells log cells' log') (hnone : ∀ i, cells i = none)
    (hnone' : ∀ i, cells' i = none) : log' = log := by
  cases hc with
  | keep => rfl
  | move i j hj => rfl
  | alloc j a hj ha =>
    have hj' := hnone' j
    rw [Function.update_self] at hj'
    exact absurd hj' (by simp)
  | free i a hi =>
    rw [hnone i] at hi
    exact absurd hi (by simp)

/-- What is lost stays so. -/
theorem Change.lost (hc : Change cells log cells' log') (hl : Lost cells log a) :
    Lost cells' log' a := by
  obtain ⟨hheld, hno⟩ := hl
  cases hc with
  | keep => exact ⟨hheld, hno⟩
  | move i j hj =>
    refine ⟨hheld, fun k => ?_⟩
    by_cases hkj : k = j
    · rw [hkj, Function.update_self]
      exact hno i
    · rw [Function.update_of_ne hkj]
      by_cases hki : k = i
      · simp [hki]
      · rw [Function.update_of_ne hki]
        exact hno k
  | alloc j b hj hb =>
    have hba : b ≠ a := by
      rintro rfl
      exact hb hheld
    refine ⟨(held_alloc_of_ne hba).mpr hheld, fun k => ?_⟩
    by_cases hkj : k = j
    · rw [hkj, Function.update_self]
      exact fun h => hba (Option.some.inj h)
    · rw [Function.update_of_ne hkj]
      exact hno k
  | free i b hi =>
    have hba : b ≠ a := by
      rintro rfl
      exact hno i hi
    refine ⟨(held_free_of_ne hba).mpr hheld, fun k => ?_⟩
    by_cases hki : k = i
    · simp [hki]
    · rw [Function.update_of_ne hki]
      exact hno k

end

end Ko6.Lib.Ledger
