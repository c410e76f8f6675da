import Ko6.Common.HtopenCreate
import Ko6.Lib.RefCount

set_option autoImplicit false

/-!
# Common: the counters of the hash table

The fields `empty` and `freed` count the slots whose key is `NULL` and those whose key is
`KEYFREED`; `hto_stat` takes the rest for the live keys.  The calls move keys between
slots without touching the counters, and they change one counter when a slot changes its
kind.

A slot that receives the key `NULL` stays, or becomes, a slot that has never been used,
while `hto_set` counts it as used.
-/

namespace Ko6.Common.Own

open Ko6.Lib Ko6.Lib.Ledger

/-! ## The kinds of slots -/

/-- What the key of a slot says of it. -/
inductive Mark where
  | empty
  | freed
  | live
  deriving DecidableEq

def mark (key : Addr) : Mark :=
  if key = 0 then .empty else if key = keyFreedAddr then .freed else .live

/-- The kinds of the slots of a table. -/
def Hto.marks (ht : Hto) (h : Nat) : Option Mark := some (mark (ht.bucket h).key)

/-- The variable `nbkeys` of `hto_stat`. -/
def Hto.nbkeys (ht : Hto) : BitVec 32 := BitVec.ofNat 32 ht.size - ht.freed - ht.empty

/-- Two counters tell how many of `n` slots are empty and freed. -/
structure Counts (n : Nat) (marks : Nat → Option Mark) (empty freed : BitVec 32) : Prop where
  empty : empty.toNat = refs n marks .empty
  freed : freed.toNat = refs n marks .freed

/-- The counters of the table are exact. -/
structure Hto.Exact (ht : Hto) : Prop
    extends Counts ht.size ht.marks ht.empty ht.freed where
  live : ht.nbkeys.toNat = refs ht.size ht.marks .live

section
variable {n g h : Nat} {marks : Nat → Option Mark} {e f : BitVec 32} {ht : Hto} {key : Addr}
  {val : BitVec 32}

@[simp] theorem mark_zero : mark 0 = .empty := rfl

@[simp] theorem mark_keyFreed : mark keyFreedAddr = .freed := by decide

theorem mark_live (h0 : key ≠ 0) (hf : key ≠ keyFreedAddr) : mark key = .live := by
  rw [mark, if_neg h0, if_neg hf]

@[simp] theorem marks_setVal : (ht.setVal h val).marks = ht.marks := by
  funext j
  unfold Hto.marks
  by_cases hj : j = h
  · simp [Hto.setVal, hj]
  · simp [Hto.setVal, hj]

theorem marks_setKey : (ht.setKey h key).marks = Function.update ht.marks h (some (mark key)) := by
  funext j
  unfold Hto.marks
  by_cases hj : j = h
  · simp [Hto.setKey, hj]
  · simp [Hto.setKey, hj]

theorem marks_of_key (hkey : (ht.bucket h).key = key) : ht.marks h = some (mark key) := by
  rw [Hto.marks, hkey]

/-- Every slot is of one kind. -/
theorem refs_marks (h : Nat → Mark) : refs n (fun i => some (h i)) .empty +
    refs n (fun i => some (h i)) .freed + refs n (fun i => some (h i)) .live = n := by
  induction n with
  | zero => rfl
  | succ n ih =>
    simp only [refs_succ, Option.some.injEq]
    cases h n <;> simp <;> omega

/-- The number of the live keys follows from the two counters. -/
theorem Counts.exact (hc : Counts ht.size ht.marks ht.empty ht.freed) (hsize : ht.size < 2 ^ 32) :
    ht.Exact := by
  refine ⟨hc, ?_⟩
  have hsum := refs_marks (n := ht.size) fun i => mark (ht.bucket i).key
  have hempty := hc.empty
  have hfreed := hc.freed
  unfold Hto.marks at hempty hfreed ⊢
  unfold Hto.nbkeys
  rw [BitVec.toNat_sub, BitVec.toNat_sub, BitVec.toNat_ofNat, Nat.mod_eq_of_lt hsize]
  omega

/-! ## Changes of kind -/

/-- A live key moves to a freed slot. -/
theorem Counts.move (hc : Counts n marks e f) (hh : h < n) (hg : g < n)
    (hlive : marks h = some .live) (hfreed : marks g = some .freed) :
    Counts n (Function.update (Function.update marks h (some .freed)) g (some .live)) e f := by
  have hgh : g ≠ h := by
    rintro rfl
    rw [hlive] at hfreed
    exact absurd hfreed (by simp)
  have hfreed' : Function.update marks h (some .freed) g = some .freed := by
    rw [Function.update_of_ne hgh, hfreed]
  constructor
  · rw [hc.empty, refs_update_of_ne hg (by rw [hfreed']; simp) (by simp),
      refs_update_of_ne hh (by rw [hlive]; simp) (by simp)]
  · have hset : refs n (Function.update marks h (some .freed)) .freed =
        refs n marks .freed + 1 := refs_set hh (by rw [hlive]; simp)
    have hclear : refs n (Function.update (Function.update marks h (some .freed)) g (some .live))
          .freed + (if Function.update marks h (some .freed) g = some .freed then 1 else 0) =
        refs n (Function.update marks h (some .freed)) .freed +
          if some Mark.live = some .freed then 1 else 0 := refs_update hg
    rw [if_pos hfreed', if_neg (by simp), hset] at hclear
    rw [hc.freed]
    omega

/-- A counter that is not 0 goes down. -/
theorem toNat_pred {c : BitVec 32} (hpos : 0 < c.toNat) : (c - 1).toNat = c.toNat - 1 := by
  have hlt := c.isLt
  have hone : (1 : BitVec 32).toNat = 1 := rfl
  rw [BitVec.toNat_sub]
  omega

/-- An empty slot receives a key: the counter of the empty slots is right exactly when
the key is live. -/
theorem counts_use_iff {m : Mark} (hc : Counts n marks e f) (hh : h < n)
    (hempty : marks h = some .empty) (hm : m ≠ .freed) :
    Counts n (Function.update marks h (some m)) (e - 1) f ↔ m = .live := by
  have hpos : 0 < refs n marks .empty := refs_pos_iff.mpr ⟨h, hh, hempty⟩
  have htoNat : (e - 1).toNat = e.toNat - 1 := toNat_pred (hc.empty ▸ hpos)
  have hclear : refs n (Function.update marks h (some m)) .empty +
      (if marks h = some .empty then 1 else 0) =
        refs n marks .empty + if some m = some .empty then 1 else 0 := refs_update hh
  rw [if_pos hempty] at hclear
  constructor
  · intro hc'
    cases m with
    | empty =>
      rw [if_pos rfl] at hclear
      have h1 := hc'.empty
      have h2 := hc.empty
      omega
    | freed => exact absurd rfl hm
    | live => rfl
  · rintro rfl
    rw [if_neg (by simp)] at hclear
    constructor
    · rw [htoNat, hc.empty]
      omega
    · rw [hc.freed, refs_update_of_ne hh (by rw [hempty]; simp) (by simp)]

/-- A freed slot receives a key: the counter of the empty slots is right exactly when the
key is live. -/
theorem counts_reuse_iff {m : Mark} (hc : Counts n marks e f) (hh : h < n)
    (hfreed : marks h = some .freed) (hm : m ≠ .freed) :
    Counts n (Function.update marks h (some m)) e (f - 1) ↔ m = .live := by
  have hpos : 0 < refs n marks .freed := refs_pos_iff.mpr ⟨h, hh, hfreed⟩
  have htoNat : (f - 1).toNat = f.toNat - 1 := toNat_pred (hc.freed ▸ hpos)
  have hclear : refs n (Function.update marks h (some m)) .freed +
      (if marks h = some .freed then 1 else 0) =
        refs n marks .freed + if some m = some .freed then 1 else 0 := refs_update hh
  rw [if_pos hfreed, if_neg (by simpa using hm)] at hclear
  constructor
  · intro hc'
    cases m with
    | empty =>
      have hset : refs n (Function.update marks h (some .empty)) .empty =
          refs n marks .empty + 1 := refs_set hh (by rw [hfreed]; simp)
      have h1 := hc'.empty
      have h2 := hc.empty
      omega
    | freed => exact absurd rfl hm
    | live => rfl
  · rintro rfl
    constructor
    · rw [hc.empty, refs_update_of_ne hh (by rw [hfreed]; simp) (by simp)]
    · rw [htoNat, hc.freed]
      omega

/-- A live key is taken out. -/
theorem Counts.delete (hc : Counts n marks e f) (hn : n < 2 ^ 32) (hh : h < n)
    (hlive : marks h = some .live) :
    Counts n (Function.update marks h (some .freed)) e (f + 1) := by
  have hset : refs n (Function.update marks h (some .freed)) .freed =
      refs n marks .freed + 1 := refs_set hh (by rw [hlive]; simp)
  have hle : refs n (Function.update marks h (some .freed)) .freed ≤ n := refs_le
  have hfreed := hc.freed
  constructor
  · rw [hc.empty, refs_update_of_ne hh (by rw [hlive]; simp) (by simp)]
  · rw [BitVec.toNat_add, hset]
    have hone : (1 : BitVec 32).toNat = 1 := rfl
    omega

end

/-! ## The calls -/

/-- `hto_set` of the key takes a slot: the key is not found, and the search comes to a
slot that has no key. -/
def Inserts (signedChar : Bool) (text : Addr → CStr) (ht : Hto) (key : Addr) : Prop :=
  ¬ Finds signedChar text ht key ∧ ∃ n, n < ht.size ∧
    ((ht.bucket (hash signedChar text ht key n)).key = 0 ∨
      (ht.bucket (hash signedChar text ht key n)).key = keyFreedAddr)

/-- The first `n` tries have met neither the key nor an empty slot. -/
def Passed (signedChar : Bool) (text : Addr → CStr) (ht : Hto) (key : Addr) (n : Nat) : Prop :=
  ∀ m, m < n → (ht.bucket (hash signedChar text ht key m)).key ≠ 0 ∧
    ¬ ht.HoldsAt text key (hash signedChar text ht key m)

section
variable {sc : Bool} {text : Addr → CStr} {dup : Strdup} {ht ht' : Hto} {heap heap' : Heap}
  {h g n : Nat} {key copy : Addr} {val : BitVec 32}

theorem passed_zero : Passed sc text ht key 0 := fun m hm => absurd hm (Nat.not_lt_zero m)

theorem Passed.succ (hp : Passed sc text ht key n)
    (h0 : (ht.bucket (hash sc text ht key n)).key ≠ 0)
    (hno : ¬ ht.HoldsAt text key (hash sc text ht key n)) : Passed sc text ht key (n + 1) := by
  intro m hm
  rcases Nat.lt_succ_iff_lt_or_eq.mp hm with hm | rfl
  · exact hp m hm
  · exact ⟨h0, hno⟩

/-- A search that has passed all tries, or comes to an empty slot, does not find the
key. -/
theorem Passed.not_finds (hp : Passed sc text ht key n)
    (hend : n = ht.size ∨ (ht.bucket (hash sc text ht key n)).key = 0) :
    ¬ Finds sc text ht key := by
  rintro ⟨k, hk, hhold, hused⟩
  rcases Nat.lt_trichotomy k n with hkn | rfl | hnk
  · exact (hp k hkn).2 hhold
  · rcases hend with rfl | h0
    · omega
    · exact hhold.1 h0
  · rcases hend with rfl | h0
    · omega
    · exact hused n hnk h0

theorem Passed.finds (hp : Passed sc text ht key n) (hn : n < ht.size)
    (hhold : ht.HoldsAt text key (hash sc text ht key n)) : Finds sc text ht key :=
  ⟨n, hn, hhold, fun m hm => (hp m hm).1⟩

theorem mark_eq_live (hf : copy ≠ keyFreedAddr) : mark copy = .live ↔ copy ≠ 0 := by
  by_cases h0 : copy = 0
  · rw [h0, mark_zero]
    simp
  · exact iff_of_true (mark_live h0 hf) h0

theorem mark_ne_freed (hf : copy ≠ keyFreedAddr) : mark copy ≠ .freed := by
  by_cases h0 : copy = 0
  · rw [h0, mark_zero]
    simp
  · rw [mark_live h0 hf]
    simp

/-- The counters of a table tell how many of its slots are empty and freed. -/
def Hto.Counted (ht : Hto) : Prop := Counts ht.size ht.marks ht.empty ht.freed

theorem Hto.Counted.insert_empty (hc : ht.Counted) (hh : h < ht.size)
    (h0 : (ht.bucket h).key = 0) (hf : copy ≠ keyFreedAddr) :
    (((ht.counts (ht.empty - 1) ht.freed).setKey h copy).setVal h val).Counted ↔ copy ≠ 0 := by
  have hmarks : (((ht.counts (ht.empty - 1) ht.freed).setKey h copy).setVal h val).marks =
      Function.update ht.marks h (some (mark copy)) := by
    rw [marks_setVal, marks_setKey]
    rfl
  unfold Hto.Counted
  rw [hmarks, ← mark_eq_live hf]
  exact counts_use_iff hc hh (marks_of_key h0) (mark_ne_freed hf)

theorem Hto.Counted.insert_freed (hc : ht.Counted) (hh : h < ht.size)
    (hkey : (ht.bucket h).key = keyFreedAddr) (hf : copy ≠ keyFreedAddr) :
    (((ht.counts ht.empty (ht.freed - 1)).setKey h copy).setVal h val).Counted ↔ copy ≠ 0 := by
  have hmarks : (((ht.counts ht.empty (ht.freed - 1)).setKey h copy).setVal h val).marks =
      Function.update ht.marks h (some (mark copy)) := by
    rw [marks_setVal, marks_setKey]
    rfl
  have hfreed : ht.marks h = some .freed := by rw [marks_of_key hkey, mark_keyFreed]
  unfold Hto.Counted
  rw [hmarks, ← mark_eq_live hf]
  exact counts_reuse_iff hc hh hfreed (mark_ne_freed hf)

theorem Hto.Counted.setVal (hc : ht.Counted) : (ht.setVal h val).Counted := by
  unfold Hto.Counted
  rw [marks_setVal]
  exact hc

theorem Hto.Counted.move (hc : ht.Counted) (hh : h < ht.size) (hg : g < ht.size)
    (hlive : ht.HoldsAt text key h) (hkey : (ht.bucket g).key = keyFreedAddr) :
    (((ht.setKey h keyFreedAddr).setKey g (ht.bucket h).key).setVal g val).Counted := by
  have hl : mark (ht.bucket h).key = .live := mark_live hlive.1 hlive.2.1
  have hmarks : (((ht.setKey h keyFreedAddr).setKey g (ht.bucket h).key).setVal g val).marks =
      Function.update (Function.update ht.marks h (some .freed)) g (some .live) := by
    rw [marks_setVal, marks_setKey, marks_setKey, mark_keyFreed, hl]
  unfold Hto.Counted
  rw [hmarks]
  refine Counts.move hc hh hg ?_ ?_
  · rw [marks_of_key rfl, hl]
  · rw [marks_of_key hkey, mark_keyFreed]

/-- What `keydup` returns is no `KEYFREED`. -/
theorem keydup_ne_keyFreed (hkey : key ≠ keyFreedAddr) :
    (keydup dup ht key heap).1 ≠ keyFreedAddr := by
  unfold keydup
  cases ht.type with
  | pointer => exact hkey
  | string =>
    simp only [strdup]
    split
    · exact show (0 : Addr) ≠ keyFreedAddr by decide
    · exact dup.ne_keyFreed heap

/-- The freed slot that a loop remembers. -/
def Freed (ht : Hto) (slot : Option Nat) : Prop :=
  ∀ g, slot = some g → g < ht.size ∧ (ht.bucket g).key = keyFreedAddr

theorem Freed.step {slot : Option Nat} (hs : Freed ht slot) (hh : h < ht.size)
    (hkey : (ht.bucket h).key = keyFreedAddr) :
    Freed ht (if slot.isNone then some h else slot) := by
  intro g hg
  cases slot with
  | none => exact Option.some.inj hg ▸ ⟨hh, hkey⟩
  | some g' => exact hs g hg

variable (sc text key) in
/-- `hto_get` keeps the counters exact. -/
theorem htoGet_counted (hc : ht.Counted) : (htoGet sc text ht key).2.Counted := by
  unfold htoGet
  refine foreachProbe_rule (fun _ slot => Freed ht slot)
    (fun r : BitVec 32 × Hto => r.2.Counted) (fun _ h => absurd h (by simp)) ?_ (fun _ _ => hc)
  intro n slot hn hslot
  have hlt : hash sc text ht key n < ht.size := hash_lt_size (by omega)
  unfold getBody
  by_cases hf : (ht.bucket (hash sc text ht key n)).key = keyFreedAddr
  · simp only [hf, if_true]
    exact hslot.step hlt hf
  by_cases h0 : (ht.bucket (hash sc text ht key n)).key = 0
  · simp only [h0, if_true]
    rw [if_neg (by decide)]
    exact hc
  by_cases he : keycmp text ht key (ht.bucket (hash sc text ht key n)).key = 0
  · simp only [hf, h0, he, if_true, if_false]
    cases slot with
    | none => exact hc
    | some g => exact hc.move hlt (hslot g rfl).1 ⟨h0, hf, he⟩ (hslot g rfl).2
  · simp only [hf, h0, he, if_false]
    exact hslot

/-- `hto_set` keeps the counters exact unless it stores `NULL`. -/
theorem htoSet_counted_iff (hc : ht.Counted) :
    (htoSet sc dup ht key val heap).2.1.Counted ↔
      (key ≠ keyFreedAddr → Inserts sc heap.text ht key → (keydup dup ht key heap).1 ≠ 0) := by
  unfold htoSet
  by_cases hkey : key = keyFreedAddr
  · rw [if_pos hkey]
    exact iff_of_true hc fun h => absurd hkey h
  rw [if_neg hkey]
  have hcopy : (keydup dup ht key heap).1 ≠ keyFreedAddr := keydup_ne_keyFreed hkey
  have hinsert : ∀ {P : Prop}, Inserts sc heap.text ht key →
      (P ↔ (keydup dup ht key heap).1 ≠ 0) →
      (P ↔ (key ≠ keyFreedAddr → Inserts sc heap.text ht key →
        (keydup dup ht key heap).1 ≠ 0)) := fun hi hP =>
    hP.trans ⟨fun h _ _ => h, fun h => h hkey hi⟩
  have hkeep : ∀ {P : Prop}, P → ¬ Inserts sc heap.text ht key →
      (P ↔ (key ≠ keyFreedAddr → Inserts sc heap.text ht key →
        (keydup dup ht key heap).1 ≠ 0)) := fun hP hn =>
    iff_of_true hP fun _ hi => absurd hi hn
  -- without a remembered slot, no slot of the tries is freed
  refine foreachProbe_rule
    (fun n (s : Option Nat × Nat) => Passed sc heap.text ht key n ∧ Freed ht s.1 ∧
      (s.1 = none → ∀ m, m < n → (ht.bucket (hash sc heap.text ht key m)).key ≠ keyFreedAddr) ∧
      ∀ g, s.1 = some g → ∃ m, m < n ∧ hash sc heap.text ht key m = g)
    (fun r : Int × Hto × Heap => r.2.1.Counted ↔ (key ≠ keyFreedAddr →
      Inserts sc heap.text ht key → (keydup dup ht key heap).1 ≠ 0))
    ⟨passed_zero, fun _ h => absurd h (by simp), fun _ m hm => absurd hm (Nat.not_lt_zero m),
      fun _ h => absurd h (by simp)⟩ ?_ ?_
  · rintro n ⟨slot, tryForthisslot⟩ hn ⟨hp, hslot, hnone, htry⟩
    have hlt : hash sc heap.text ht key n < ht.size := hash_lt_size (by omega)
    unfold setBody
    by_cases hf : (ht.bucket (hash sc heap.text ht key n)).key = keyFreedAddr
    · have hstep := hslot.step hlt hf
      simp only [hf, if_true]
      refine ⟨hp.succ (by rw [hf]; decide) fun hhold => hhold.2.1 hf, ?_, ?_, ?_⟩
      · cases slot <;> exact hstep
      · cases slot <;> simp
      · intro g hg
        cases slot with
        | none => exact ⟨n, Nat.lt_succ_self n, Option.some.inj hg⟩
        | some g' =>
          obtain ⟨m, hm, hmg⟩ := htry g hg
          exact ⟨m, Nat.lt_succ_of_lt hm, hmg⟩
    by_cases h0 : (ht.bucket (hash sc heap.text ht key n)).key = 0
    · have hi : Inserts sc heap.text ht key := ⟨hp.not_finds (.inr h0), n, hn, .inl h0⟩
      simp only [h0, if_true]
      rw [if_neg (by decide)]
      cases slot with
      | none => exact hinsert hi (hc.insert_empty hlt h0 hcopy)
      | some g => exact hinsert hi (hc.insert_freed (hslot g rfl).1 (hslot g rfl).2 hcopy)
    by_cases he : keycmp heap.text ht key (ht.bucket (hash sc heap.text ht key n)).key = 0
    · have hno : ¬ Inserts sc heap.text ht key := fun hi => hi.1 (hp.finds hn ⟨h0, hf, he⟩)
      simp only [hf, h0, he, if_true, if_false]
      cases slot with
      | none => exact hkeep hc.setVal hno
      | some g =>
        exact hkeep (hc.move hlt (hslot g rfl).1 ⟨h0, hf, he⟩ (hslot g rfl).2) hno
    · simp only [hf, h0, he, if_false]
      refine ⟨hp.succ h0 fun hhold => he hhold.2.2, hslot, ?_, ?_⟩
      · intro hs m hm
        rcases Nat.lt_succ_iff_lt_or_eq.mp hm with hm | rfl
        · exact hnone hs m hm
        · exact hf
      · intro g hg
        obtain ⟨m, hm, hmg⟩ := htry g hg
        exact ⟨m, Nat.lt_succ_of_lt hm, hmg⟩
  · rintro ⟨slot, tryForthisslot⟩ ⟨hp, hslot, hnone, htry⟩
    cases slot with
    | none =>
      refine hkeep hc ?_
      rintro ⟨-, m, hm, hkey | hkey⟩
      · exact (hp m hm).1 hkey
      · exact hnone rfl m hm hkey
    | some g =>
      obtain ⟨m, hm, hmg⟩ := htry g rfl
      have hi : Inserts sc heap.text ht key :=
        ⟨hp.not_finds (.inl rfl), m, hm, .inr (by rw [hmg]; exact (hslot g rfl).2)⟩
      exact hinsert hi (hc.insert_freed (hslot g rfl).1 (hslot g rfl).2 hcopy)

/-- `hto_del` keeps the counters exact. -/
theorem htoDel_counted (hc : ht.Counted) (hsize : ht.size < 2 ^ 32) :
    (htoDel sc ht key heap).2.1.Counted := by
  unfold htoDel
  refine foreachProbe_rule (fun _ (_ : Unit) => True)
    (fun r : BitVec 32 × Hto × Heap => r.2.1.Counted) trivial ?_ (fun _ _ => hc)
  rintro n ⟨⟩ hn -
  have hlt : hash sc heap.text ht key n < ht.size := hash_lt_size (by omega)
  unfold delBody
  by_cases hf : (ht.bucket (hash sc heap.text ht key n)).key = keyFreedAddr
  · simp only [hf, if_true]
  by_cases h0 : (ht.bucket (hash sc heap.text ht key n)).key = 0
  · simp only [h0, if_true]
    rw [if_neg (by decide)]
    exact hc
  by_cases he : keycmp heap.text ht key (ht.bucket (hash sc heap.text ht key n)).key = 0
  · simp only [hf, h0, he, if_true, if_false]
    have hlive : ht.marks (hash sc heap.text ht key n) = some .live := by
      rw [marks_of_key rfl, mark_live h0 hf]
    have hmarks : ((ht.setKey (hash sc heap.text ht key n) keyFreedAddr).setVal
        (hash sc heap.text ht key n) 0).marks =
        Function.update ht.marks (hash sc heap.text ht key n) (some .freed) := by
      rw [marks_setVal, marks_setKey, mark_keyFreed]
    have hdelete := Counts.delete hc hsize hlt hlive
    rw [← hmarks] at hdelete
    exact hdelete
  · simp only [hf, h0, he, if_false]

end

/-! ## Runs -/

/-- The calls that change slots only, and the writes of the callers. -/
def Call.OnSlots : Call → Prop
  | .set _ _ | .get _ | .del _ | .write _ => True
  | .rehash _ _ | .destroy => False

/-- The counters of the live table are exact. -/
def Sys.Counted (s : Sys) : Prop := ∀ ht, s.ht = some ht → ht.Exact

/-- The steps that store no `NULL`: where `hto_set` takes a slot, the key or its copy is
not `NULL`. -/
def Sys.StoresKey (signedChar : Bool) (dup : Strdup) (s : Sys) (call : Call) : Prop :=
  match call, s.ht with
  | .set key _, some ht => key ≠ keyFreedAddr → Inserts signedChar s.heap.text ht key →
      (keydup dup ht key s.heap).1 ≠ 0
  | _, _ => True

/-- The live table has exact counters, and its size fits the field. -/
def Sys.CountInv (s : Sys) : Prop :=
  ∀ ht, s.ht = some ht → ht.Counted ∧ ht.size < 2 ^ 30

section
variable {sc : Bool} {dup : Strdup} {s : Sys} {call : Call}

theorem Sys.CountInv.counted (hi : s.CountInv) : s.Counted := by
  intro ht hht
  obtain ⟨hc, hsize⟩ := hi ht hht
  exact Counts.exact hc (by omega)

theorem Sys.CountInv.step (hi : s.CountInv) (hcall : call.OnSlots)
    (hk : s.StoresKey sc dup call) : (s.step sc dup call).CountInv := by
  obtain ⟨_ | ht, heap⟩ := s
  · cases call with
    | set | get | del | write => exact fun ht' hht' => absurd hht' (by simp [Sys.step])
    | rehash | destroy => exact hcall.elim
  obtain ⟨hc, hsize⟩ := hi ht rfl
  intro ht' hht'
  cases call with
  | set key val =>
    have hstep : some (htoSet sc dup ht key val heap).2.1 = some ht' := hht'
    obtain rfl := Option.some.inj hstep
    refine ⟨htoSet_counted_iff hc |>.mpr hk, ?_⟩
    rw [(htoSet_turns sc dup ht heap key val).size]
    exact hsize
  | get key =>
    have hstep : some (htoGet sc heap.text ht key).2 = some ht' := hht'
    obtain rfl := Option.some.inj hstep
    refine ⟨htoGet_counted sc heap.text key hc, ?_⟩
    rw [(htoGet_turns sc heap.text ht heap key).size]
    exact hsize
  | del key =>
    have hstep : some (htoDel sc ht key heap).2.1 = some ht' := hht'
    obtain rfl := Option.some.inj hstep
    refine ⟨htoDel_counted hc (by omega), ?_⟩
    have hdels := htoDel_dels sc ht heap key
    generalize (htoDel sc ht key heap).2.1 = ht', (htoDel sc ht key heap).2.2 = heap' at hdels ⊢
    cases hdels with
    | found h ht' hfound hlt h0 hf htype hsize' hcopies =>
      rw [hsize']
      exact hsize
    | missing => exact hsize
  | write text =>
    obtain rfl := Option.some.inj hht'
    exact ⟨hc, hsize⟩
  | rehash | destroy => exact hcall.elim

theorem Sys.CountInv.breaks (hi : s.CountInv) (hk : ¬ s.StoresKey sc dup call) :
    ¬ (s.step sc dup call).Counted := by
  obtain ⟨_ | ht, heap⟩ := s
  · cases call <;> exact absurd trivial hk
  cases call with
  | set key val =>
    obtain ⟨hc, hsize⟩ := hi ht rfl
    intro hcounted
    exact hk ((htoSet_counted_iff hc).mp (hcounted _ rfl).toCounts)
  | get | del | write | rehash | destroy => exact absurd trivial hk

end

/-- A table that `hto_create` has made has exact counters if its size fits the field. -/
theorem start_countInv (nb : BitVec 32) (type : Nat) (malloc : Bool) (text : Addr → CStr) :
    (largestPrime nb.toNat < 2 ^ 30 ∨ htoCreate nb.toNat type malloc = none →
      (Sys.start nb.toNat type malloc text).CountInv) ∧
    ((Sys.start nb.toNat type malloc text).Counted →
      largestPrime nb.toNat < 2 ^ 30 ∨ htoCreate nb.toNat type malloc = none) := by
  have hlt : largestPrime nb.toNat < 2 ^ 32 := largestPrime_lt nb.isLt
  have hall : ∀ ht : Hto, (∀ h, (ht.bucket h).key = 0) → ∀ n, refs n ht.marks .empty = n ∧
      refs n ht.marks .freed = 0 := by
    intro ht h0 n
    have hmarks : ht.marks = fun _ => some .empty := by
      funext h
      rw [marks_of_key (h0 h), mark_zero]
    rw [hmarks]
    induction n with
    | zero => exact ⟨rfl, rfl⟩
    | succ n ih =>
      rw [refs_succ, refs_succ, ih.1, ih.2]
      simp
  constructor
  · rintro hfit ht hht
    obtain ⟨-, -, hsize, hempty, hfreed, h0⟩ := htoCreate_eq hht
    have hprime : largestPrime nb.toNat < 2 ^ 30 := by
      rcases hfit with hfit | hnone
      · exact hfit
      · exact absurd (hnone.symm.trans hht) (by simp)
    rw [Nat.mod_eq_of_lt hprime] at hsize
    refine ⟨⟨?_, ?_⟩, by omega⟩
    · rw [(hall ht h0 _).1, hempty, hsize, BitVec.toNat_ofNat, Nat.mod_eq_of_lt hlt]
    · rw [(hall ht h0 _).2, hfreed]
      rfl
  · intro hcounted
    cases hc : htoCreate nb.toNat type malloc with
    | none => exact .inr rfl
    | some ht =>
      obtain ⟨-, -, hsize, hempty, -, h0⟩ := htoCreate_eq hc
      have hexact := (hcounted ht hc).empty
      rw [(hall ht h0 _).1, hempty, hsize, BitVec.toNat_ofNat, Nat.mod_eq_of_lt hlt] at hexact
      exact .inl (by omega)

/-- In every run of a table that `hto_create` makes, the counters are exact all along if
and only if the size of the table fits its field and no `hto_set` stores `NULL`. -/
theorem htoRun_counted_iff (sc : Bool) (dup : Strdup) (nb : BitVec 32) (type : Nat)
    (malloc : Bool) (text : Addr → CStr) (calls : List Call)
    (hcalls : ∀ call ∈ calls, call.OnSlots) :
    (∀ done, done <+: calls →
        ((Sys.start nb.toNat type malloc text).run sc dup done).Counted) ↔
      (largestPrime nb.toNat < 2 ^ 30 ∨ htoCreate nb.toNat type malloc = none) ∧
        ∀ done call, done ++ [call] <+: calls →
          ((Sys.start nb.toNat type malloc text).run sc dup done).StoresKey sc dup call := by
  obtain ⟨hfits, hfitted⟩ := start_countInv nb type malloc text
  have hiff : (Sys.start nb.toNat type malloc text).CountInv →
      ((∀ done, done <+: calls →
        ((Sys.start nb.toNat type malloc text).run sc dup done).Counted) ↔
      ∀ done call, done ++ [call] <+: calls →
        ((Sys.start nb.toNat type malloc text).run sc dup done).StoresKey sc dup call) := fun hi =>
    foldl_prefix_iff calls (fun _ hi => hi.counted)
      (fun _ call hcall hi hk => hi.step (hcalls call hcall) hk) (fun _ _ _ hi hk => hi.breaks hk) hi
  constructor
  · intro hall
    have hfit := hfitted (hall [] (List.nil_prefix ..))
    exact ⟨hfit, (hiff (hfits hfit)).mp hall⟩
  · rintro ⟨hfit, hstores⟩
    exact (hiff (hfits hfit)).mpr hstores

/-! ## The key `NULL` -/

/-- A run of a table of three pointers. -/
theorem htoRun_counted_three : largestPrime 3 < 2 ^ 30 ∧
    ∀ done, done <+: [Call.set 4096 7, .get 4096, .del 4096] →
      ((Sys.start 3 1 true textA).run false threePlaces done).Counted := by
  have hprime : largestPrime 3 < 2 ^ 30 := by decide
  have hstore : (Sys.start 3 1 true textA).StoresKey false threePlaces (.set 4096 7) := by
    intro _ _
    decide
  refine ⟨hprime, (htoRun_counted_iff false threePlaces 3 1 true textA _ ?_).mpr
    ⟨.inl hprime, ?_⟩⟩
  · simp [Call.OnSlots]
  · intro done call hpre
    rcases done with _ | ⟨c, _ | ⟨d, _ | ⟨f, rest⟩⟩⟩ <;>
      simp only [List.nil_append, List.cons_append, List.cons_prefix_cons, List.prefix_nil,
        List.append_eq_nil_iff] at hpre
    · obtain ⟨rfl, -⟩ := hpre
      exact hstore
    · obtain ⟨-, rfl, -⟩ := hpre
      trivial
    · obtain ⟨-, -, rfl, -⟩ := hpre
      trivial
    · exact absurd hpre.2.2.2.2 (by simp)

/-- `hto_set` of the pointer `NULL` in an empty table of three slots: all slots are
empty after it, and the counter says two. -/
theorem hto_null_not_counted :
    ∃ ht, ((Sys.start 3 1 true textA).run false threePlaces [.set 0 7]).ht = some ht ∧
      ht.empty = 2 ∧ refs ht.size ht.marks .empty = 3 ∧
      ¬ ((Sys.start 3 1 true textA).run false threePlaces [.set 0 7]).Counted := by
  have hrun : (((Sys.start 3 1 true textA).run false threePlaces [.set 0 7]).ht.map fun ht =>
      (ht.empty, refs ht.size ht.marks .empty)) = some (2, 3) := by
    decide +kernel
  obtain ⟨ht, hht, heq⟩ := Option.map_eq_some_iff.mp hrun
  obtain ⟨hempty, hrefs⟩ := Prod.mk.inj heq
  refine ⟨ht, hht, hempty, hrefs, fun hcounted => ?_⟩
  have hexact := (hcounted ht hht).empty
  rw [hempty, hrefs] at hexact
  exact absurd hexact (by decide)

end Ko6.Common.Own
