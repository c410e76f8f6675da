import Ko6.Common.HtopenMap
import Ko6.Lib.Stride

set_option autoImplicit false

/-!
# Common: the positions that a search in the hash table visits

`hash` adds `try` steps of `h2` to `h1` and takes the remainder by the number of slots.
The step is between 1 and the size less one, and the size is a prime; so the positions
of all tries are all the slots, if the sums are those of the integers.  The sums are
those of an `unsigned long`: where they pass 2³² the positions are moved, and one slot
at least is left out.
-/

namespace Ko6.Common

open Ko6.Lib

/-! ## Start and step -/

section
variable (signedChar : Bool) (ht : Hto) (key : Key)

/-- The variables `h1` and `h2` of `hash` before the reduction of `h2`. -/
def hashPair : BitVec 32 × BitVec 32 :=
  match ht.type with
  | .string => hashChars signedChar key.chars
  | .pointer => (key.addr * 2654435761, (key.addr <<< 6) + (key.addr <<< 16))

/-- `h1`. -/
def hashStart : Nat := (hashPair signedChar ht key).1.toNat

/-- `h2`, reduced to a number between 1 and the size less one. -/
def hashStep : Nat := (hashPair signedChar ht key).2.toNat % (ht.size - 1) + 1

/-- The sum of the last try is less than 2³². -/
def NoWrap : Prop :=
  hashStart signedChar ht key + (ht.size - 1) * hashStep signedChar ht key < 2 ^ 32

instance : Decidable (NoWrap signedChar ht key) := inferInstanceAs (Decidable (_ < _))

/-- The positions of the tries are the slots of the table, each once. -/
def Covers : Prop :=
  ((List.range ht.size).map (hash signedChar ht key)).Perm (List.range ht.size)

end

section
variable {sc : Bool} {ht : Hto} {key : Key}

theorem hashStart_lt : hashStart sc ht key < 2 ^ 32 := BitVec.isLt _

theorem hashStep_lt (h3 : 3 ≤ ht.size) : hashStep sc ht key < ht.size := by
  have : (hashPair sc ht key).2.toNat % (ht.size - 1) < ht.size - 1 := Nat.mod_lt _ (by omega)
  unfold hashStep
  omega

/-- The step is coprime to a prime size. -/
theorem hashStep_coprime (hp : ht.size.Prime) (h3 : 3 ≤ ht.size) :
    Nat.Coprime (hashStep sc ht key) ht.size :=
  (Nat.coprime_of_lt_prime (Nat.succ_ne_zero _) (hashStep_lt h3) hp).symm

/-- `hash` in numbers. -/
theorem hash_eq (h3 : 3 ≤ ht.size) (hbits : ht.size < 2 ^ 30) (nbtry : Nat) :
    hash sc ht key nbtry =
      (hashStart sc ht key + nbtry * hashStep sc ht key) % 2 ^ 32 % ht.size := by
  have hsize : (BitVec.ofNat 32 (ht.size - 1)).toNat = ht.size - 1 := by
    rw [BitVec.toNat_ofNat, Nat.mod_eq_of_lt (by omega)]
  have hstep : ((hashPair sc ht key).2 % BitVec.ofNat 32 (ht.size - 1) + 1).toNat =
      hashStep sc ht key := by
    have hlt : hashStep sc ht key < 2 ^ 32 := (hashStep_lt h3).trans (by omega)
    rw [BitVec.toNat_add, BitVec.toNat_umod, hsize]
    exact Nat.mod_eq_of_lt hlt
  have hhash : hash sc ht key nbtry = ((hashPair sc ht key).1 + BitVec.ofNat 32 nbtry *
      ((hashPair sc ht key).2 % BitVec.ofNat 32 (ht.size - 1) + 1)).toNat % ht.size := rfl
  rw [hhash, BitVec.toNat_add, BitVec.toNat_mul, hstep, BitVec.toNat_ofNat, Nat.mod_mul_mod,
    Nat.add_mod_mod]
  rfl

/-- Without reduction the positions are all the slots. -/
theorem NoWrap.covers (hn : NoWrap sc ht key) (hp : ht.size.Prime) (h3 : 3 ≤ ht.size)
    (hbits : ht.size < 2 ^ 30) : Covers sc ht key := by
  unfold Covers
  rw [List.map_congr_left fun nbtry _ => hash_eq h3 hbits nbtry]
  exact Stride.perm_of_lt (hashStep_coprime hp h3) hp.pos hn

/-- In a table of at most 2¹⁶ slots the sum passes 2³² once at most; where it does, a
slot is left out. -/
theorem Covers.noWrap (hc : Covers sc ht key) (hp : ht.size.Prime) (h3 : 3 ≤ ht.size)
    (hsmall : ht.size ≤ 2 ^ 16) : NoWrap sc ht key := by
  have hbits : ht.size < 2 ^ 30 := by omega
  have hodd : Nat.Coprime (2 ^ 32) ht.size := by
    refine Nat.Coprime.pow_left 32 ?_
    rw [Nat.coprime_primes Nat.prime_two hp]
    omega
  have honce : hashStart sc ht key + (ht.size - 1) * hashStep sc ht key < 2 * 2 ^ 32 := by
    have hstep : hashStep sc ht key < ht.size := hashStep_lt h3
    have hmul : (ht.size - 1) * hashStep sc ht key ≤ 2 ^ 16 * 2 ^ 16 :=
      Nat.mul_le_mul (by omega) (by omega)
    have hstart : hashStart sc ht key < 2 ^ 32 := hashStart_lt
    omega
  unfold Covers at hc
  rw [List.map_congr_left fun nbtry _ => hash_eq h3 hbits nbtry] at hc
  exact (Stride.perm_iff hodd (hashStep_coprime hp h3) hp.one_lt hashStart_lt honce).mp hc

end

/-! ## No space -/

/-- The slot holds a live key that is not `key`. -/
def Hto.OtherAt (ht : Hto) (key : Key) (h : Nat) : Prop :=
  (ht.bucket h).key ≠ .null ∧ (ht.bucket h).key ≠ .keyFreed ∧
    keycmp ht key (ht.bucket h).key ≠ 0

/-- `hto_set` of the key says that there is no space only when all slots hold other live
keys: in every table of this type and size, for every value. -/
def NoSpaceOnlyFull (signedChar : Bool) (ht : Hto) (key : Key) : Prop :=
  ∀ ht' val, SameShape ht ht' → (htoSet signedChar ht' key val).1 = -enospc →
    ∀ h, h < ht'.size → ht'.OtherAt key h

section
variable {sc : Bool} {ht : Hto} {key : Key} {val : BitVec 32}

/-- When `hto_set` finds no space, all the slots that it has visited hold other keys. -/
theorem htoSet_noSpace (hret : (htoSet sc ht key val).1 = -enospc) :
    ∀ nbtry, nbtry < ht.size → ht.OtherAt key (hash sc ht key nbtry) := by
  have hnat : ∀ n : Nat, (n : Int) ≠ -enospc := by
    intro n hn
    have : (0 : Int) ≤ -enospc := hn ▸ Int.natCast_nonneg n
    exact absurd this (by decide)
  revert hret
  unfold htoSet
  split
  · intro hret
    exact absurd hret (show ¬ (-2 : Int) = -enospc by decide)
  -- as long as no freed slot is found, the slots of all tries hold other keys
  refine foreachProbe_rule
    (fun n (s : Option Nat × Nat) => s.1 = none → ∀ u, u < n → ht.OtherAt key (hash sc ht key u))
    (fun r : Int × Hto => r.1 = -enospc →
      ∀ u, u < ht.size → ht.OtherAt key (hash sc ht key u)) (fun _ u hu => absurd hu (by omega)) ?_ ?_
  · rintro n ⟨slot, tryForthisslot⟩ _ hbefore
    unfold setBody
    by_cases hf : (ht.bucket (hash sc ht key n)).key = .keyFreed
    · simp only [hf, if_true]
      cases slot <;> simp
    by_cases h0 : (ht.bucket (hash sc ht key n)).key = .null
    · simp only [h0, reduceCtorEq, if_true, if_false]
      cases slot <;> exact fun hret => absurd hret (hnat _)
    by_cases he : keycmp ht key (ht.bucket (hash sc ht key n)).key = 0
    · simp only [hf, h0, he, if_true, if_false]
      cases slot <;> exact fun hret => absurd hret (hnat _)
    · simp only [hf, h0, he, if_false]
      intro hnone u hu
      rcases Nat.lt_succ_iff_lt_or_eq.mp hu with hu | rfl
      · exact hbefore hnone u hu
      · exact ⟨h0, hf, he⟩
  · rintro ⟨slot, tryForthisslot⟩ hbefore
    cases slot with
    | none => exact fun _ => hbefore rfl
    | some g => exact fun hret => absurd hret (hnat _)

/-- Where the search visits all slots, no space means that the table is full. -/
theorem Covers.noSpaceOnlyFull (hc : Covers sc ht key) : NoSpaceOnlyFull sc ht key := by
  intro ht' val hshape hret h hlt
  have hmem : h ∈ (List.range ht.size).map (hash sc ht key) :=
    (hc.mem_iff).mpr (List.mem_range.mpr (hshape.size ▸ hlt))
  obtain ⟨nbtry, hn, rfl⟩ := List.mem_map.mp hmem
  have hother := htoSet_noSpace hret nbtry (hshape.size ▸ List.mem_range.mp hn)
  rwa [hshape.hash] at hother

/-- The positions of a key in a table of a prime number of slots are all the slots, and
`hto_set` finds no space only in a full table, when the sums of `hash` stay below 2³².
In a table of at most 2¹⁶ slots, and `hto_create` makes none of more than 510, they are
so only then. -/
theorem hto_probe_iff (hp : ht.size.Prime) (h3 : 3 ≤ ht.size) (hbits : ht.size < 2 ^ 30) :
    (NoWrap sc ht key → Covers sc ht key ∧ NoSpaceOnlyFull sc ht key) ∧
      (ht.size ≤ 2 ^ 16 →
        (Covers sc ht key ∧ NoSpaceOnlyFull sc ht key ↔ NoWrap sc ht key)) := by
  have hsound : NoWrap sc ht key → Covers sc ht key ∧ NoSpaceOnlyFull sc ht key := by
    intro hn
    have hc := hn.covers hp h3 hbits
    exact ⟨hc, hc.noSpaceOnlyFull⟩
  refine ⟨hsound, fun hsmall => ⟨fun ⟨hc, _⟩ => ?_, hsound⟩⟩
  exact hc.noWrap hp h3 hsmall

end

/-! ## A pointer whose search leaves a slot out -/

/-- The pointer that `h1` takes to 2³² less one. -/
def lastPtr : Key := .ptr ⟨0xF174D0AF, by decide, by decide⟩

/-- A table of three pointers with the pointers 6 and 1: slot 2 is empty. -/
def twoPtrs (ht : Hto) : Hto :=
  let ht := (htoSet false ht (.ptr ⟨6, by decide, by decide⟩) 7).2
  (htoSet false ht (.ptr ⟨1, by decide, by decide⟩) 8).2

/-- The search for the pointer visits slot 0 twice and slot 2 never: `hto_set` finds no
space in a table with an empty slot. -/
theorem hto_set_leaves_slot :
    ∃ ht, htoCreate 3 1 = some ht ∧ ht.size = 3 ∧
      (List.range 3).map (hash false ht lastPtr) = [0, 0, 1] ∧
      (htoSet false (twoPtrs ht) lastPtr 9).1 = -enospc ∧
      ((twoPtrs ht).bucket 2).key = .null ∧
      ¬ Covers false ht lastPtr ∧ ¬ NoSpaceOnlyFull false ht lastPtr := by
  obtain ⟨ht, hc⟩ : ∃ ht, htoCreate 3 1 = some ht := ⟨_, rfl⟩
  have hall : ((htoCreate 3 1).map fun ht =>
      (ht.size, (List.range 3).map (hash false ht lastPtr),
        (htoSet false (twoPtrs ht) lastPtr 9).1, ((twoPtrs ht).bucket 2).key,
        (twoPtrs ht).type == ht.type, (twoPtrs ht).size)) =
      some (3, [0, 0, 1], -enospc, .null, true, 3) := by
    decide +kernel
  rw [hc, Option.map_some, Option.some.injEq] at hall
  simp only [Prod.mk.injEq, beq_iff_eq] at hall
  obtain ⟨hsize, hpos, hret, hkey, htype, hsize'⟩ := hall
  refine ⟨ht, hc, hsize, hpos, hret, hkey, fun hcov => ?_, fun hfull => ?_⟩
  · unfold Covers at hcov
    rw [hsize, hpos] at hcov
    exact absurd hcov (by decide)
  · have hother := hfull (twoPtrs ht) 9 ⟨htype, hsize'.trans hsize.symm⟩ hret 2
      (by rw [hsize']; decide)
    exact hother.1 hkey

/-- The pointer 1 finds its place in every table of three slots that has one. -/
theorem hto_probe_iff_one :
    ∃ ht, htoCreate 3 1 = some ht ∧
      Covers false ht (.ptr ⟨1, by decide, by decide⟩) ∧
        NoSpaceOnlyFull false ht (.ptr ⟨1, by decide, by decide⟩) := by
  obtain ⟨ht, hc⟩ : ∃ ht, htoCreate 3 1 = some ht := ⟨_, rfl⟩
  have hall : ((htoCreate 3 1).map fun ht =>
      (ht.size, decide (NoWrap false ht (.ptr ⟨1, by decide, by decide⟩)))) =
      some (3, true) := by
    decide +kernel
  rw [hc, Option.map_some, Option.some.injEq, Prod.mk.injEq, decide_eq_true_eq] at hall
  obtain ⟨hsize, hwrap⟩ := hall
  refine ⟨ht, hc, (hto_probe_iff ?_ (by omega) (by omega)).1 hwrap⟩
  rw [hsize]
  exact Nat.prime_three

end Ko6.Common
