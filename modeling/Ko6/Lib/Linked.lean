import Mathlib.Logic.Function.Basic
import Mathlib.Tactic.Common

set_option autoImplicit false

/-!
# Lib: load linked and store conditional

Processors share a memory.  A processor links a word when it reads it with a load linked,
and its store conditional goes through while the link stands.  A write to a word breaks the
links of all processors to it, and a link may break at any time without one.
-/

namespace Ko6.Lib

/-- The words, and for each processor the word it has linked. -/
structure Bus (C A V : Type) where
  mem : A → V
  link : C → Option A

namespace Bus

variable {C A V : Type}

section
variable [DecidableEq C]

def loadLinked (b : Bus C A V) (c : C) (a : A) : Bus C A V :=
  { b with link := Function.update b.link c (some a) }

def unlink (b : Bus C A V) (c : C) : Bus C A V :=
  { b with link := Function.update b.link c none }

end

def store [DecidableEq A] (b : Bus C A V) (a : A) (v : V) : Bus C A V where
  mem := Function.update b.mem a v
  link := fun c => if b.link c = some a then none else b.link c

/-- The store of a processor that goes through only while its link stands. -/
def storeConditional [DecidableEq C] [DecidableEq A] (b : Bus C A V) (c : C) (a : A) (v : V) : Bool × Bus C A V :=
  if b.link c = some a then (true, b.store a v) else (false, b.unlink c)

variable {b b' : Bus C A V} {c d : C} {a a' : A} {v : V}

/-- What the processor `c` has linked in `b'` it had linked in `b`, with the value it has. -/
def LinkKept (b b' : Bus C A V) (c : C) : Prop :=
  ∀ a, b'.link c = some a → b.link c = some a ∧ b'.mem a = b.mem a

theorem LinkKept.refl (b : Bus C A V) (c : C) : LinkKept b b c := fun _ h => ⟨h, rfl⟩

section
variable [DecidableEq C]

@[simp] theorem loadLinked_mem : (b.loadLinked c a).mem = b.mem := rfl

@[simp] theorem unlink_mem : (b.unlink c).mem = b.mem := rfl

@[simp] theorem loadLinked_link_self : (b.loadLinked c a).link c = some a :=
  Function.update_self ..

theorem loadLinked_link_of_ne (h : d ≠ c) : (b.loadLinked c a).link d = b.link d :=
  Function.update_of_ne h ..

@[simp] theorem unlink_link_self : (b.unlink c).link c = none := Function.update_self ..

theorem unlink_link_of_ne (h : d ≠ c) : (b.unlink c).link d = b.link d :=
  Function.update_of_ne h ..

theorem linkKept_loadLinked (h : d ≠ c) : LinkKept b (b.loadLinked c a) d := by
  intro a' hlink
  rw [loadLinked_link_of_ne h] at hlink
  exact ⟨hlink, rfl⟩

theorem linkKept_unlink : LinkKept b (b.unlink c) d := by
  intro a' hlink
  by_cases h : d = c
  · rw [h, unlink_link_self] at hlink
    exact absurd hlink (by simp)
  · rw [unlink_link_of_ne h] at hlink
    exact ⟨hlink, rfl⟩

end

section
variable [DecidableEq A]

@[simp] theorem store_mem : (b.store a v).mem = Function.update b.mem a v := rfl

theorem linkKept_store : LinkKept b (b.store a v) d := by
  intro a' hlink
  have hcases : b.link d ≠ some a ∧ b.link d = some a' := by
    simp only [store] at hlink
    split at hlink
    · exact absurd hlink (by simp)
    · exact ⟨‹_›, hlink⟩
  have hne : a' ≠ a := by
    rintro rfl
    exact hcases.1 hcases.2
  exact ⟨hcases.2, Function.update_of_ne hne ..⟩

end

variable [DecidableEq C] [DecidableEq A]

theorem storeConditional_of_linked (h : b.link c = some a) :
    b.storeConditional c a v = (true, b.store a v) := if_pos h

theorem storeConditional_of_not_linked (h : b.link c ≠ some a) :
    b.storeConditional c a v = (false, b.unlink c) := if_neg h

/-- What a processor may do besides that leaves the words of `W` alone: its plain stores and
store conditionals go elsewhere. -/
inductive Elsewhere (W : A → Prop) : Bus C A V → Bus C A V → Prop where
  | load (b : Bus C A V) : Elsewhere W b b
  | store (b : Bus C A V) (a : A) (v : V) (ha : ¬ W a) : Elsewhere W b (b.store a v)
  | loadLinked (b : Bus C A V) (c : C) (a : A) (ha : ¬ W a) : Elsewhere W b (b.loadLinked c a)
  | storeConditional (b : Bus C A V) (c : C) (a : A) (v : V) (ha : ¬ W a) :
      Elsewhere W b (b.storeConditional c a v).2

theorem Elsewhere.mem_eq {W : A → Prop} (h : Elsewhere W b b') (ha : W a) :
    b'.mem a = b.mem a := by
  have hne : ∀ {x}, ¬ W x → a ≠ x := fun hx hax => hx (hax ▸ ha)
  cases h with
  | load => rfl
  | store x v hx => exact Function.update_of_ne (hne hx) ..
  | loadLinked c x hx => rfl
  | storeConditional c x v hx =>
    unfold Bus.storeConditional
    split
    · exact Function.update_of_ne (hne hx) ..
    · rfl

/-- A link to a word of `W` that stands afterwards stood before. -/
theorem Elsewhere.link_of_link {W : A → Prop} (h : Elsewhere W b b') (ha : W a)
    (hlink : b'.link d = some a) : b.link d = some a := by
  cases h with
  | load => exact hlink
  | store x v hx => exact (linkKept_store a hlink).1
  | loadLinked c x hx =>
    by_cases hd : d = c
    · rw [hd, loadLinked_link_self] at hlink
      rw [Option.some.injEq] at hlink
      exact absurd (hlink ▸ ha) hx
    · exact (linkKept_loadLinked hd a hlink).1
  | storeConditional c x v hx =>
    unfold Bus.storeConditional at hlink
    split at hlink
    · exact (linkKept_store a hlink).1
    · exact (linkKept_unlink a hlink).1

end Bus

end Ko6.Lib
