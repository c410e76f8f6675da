import Mathlib.Data.Nat.ModEq
import Mathlib.Data.List.Basic
import Mathlib.Tactic.Common

set_option autoImplicit false

/-!
# Lib: round robin

The places of a circular table are tried in order, from the one after the last choice
on, and the first one that is ready is chosen.  Which places are ready may change at
will between two choices.  A place that stays ready comes nearer with every choice that
is not its own.
-/

namespace Ko6.Lib.RoundRobin

variable {n a b i k : Nat} {ready : Nat → Bool}

/-- The places in the order of the trials, the last choice at the end. -/
def order (n a : Nat) : List Nat := (List.range n).map fun k => (a + 1 + k) % n

/-- The choice. -/
def elect (n : Nat) (ready : Nat → Bool) (a : Nat) : Option Nat := (order n a).find? ready

/-- `k` places are tried before `i`. -/
def Ahead (n a i k : Nat) : Prop := k < n ∧ (a + 1 + k) % n = i

/-- Every place is tried. -/
theorem exists_ahead (ha : a < n) (hi : i < n) : ∃ k, Ahead n a i k := by
  by_cases hle : a + 1 ≤ i
  · exact ⟨i - (a + 1), by omega, by rw [Nat.add_sub_cancel' hle, Nat.mod_eq_of_lt hi]⟩
  · refine ⟨i + n - (a + 1), by omega, ?_⟩
    rw [Nat.add_sub_cancel' (by omega), Nat.add_mod_right, Nat.mod_eq_of_lt hi]

/-- No place is tried twice. -/
theorem Ahead.unique {k' : Nat} (h : Ahead n a i k) (h' : Ahead n a i k') : k = k' := by
  have hmod : a + 1 + k ≡ a + 1 + k' [MOD n] := h.2.trans h'.2.symm
  have hk : k ≡ k' [MOD n] := Nat.ModEq.add_left_cancel' _ hmod
  rwa [Nat.ModEq, Nat.mod_eq_of_lt h.1, Nat.mod_eq_of_lt h'.1] at hk

/-- The last choice itself is tried last. -/
theorem ahead_self (ha : a < n) : Ahead n a a (n - 1) := by
  refine ⟨by omega, ?_⟩
  rw [show a + 1 + (n - 1) = a + n by omega, Nat.add_mod_right, Nat.mod_eq_of_lt ha]

/-- What is chosen is ready, and nothing that is tried before it is. -/
theorem elect_eq_some_iff : elect n ready a = some b ↔
    ready b = true ∧ ∃ k, Ahead n a b k ∧ ∀ j, j < k → ready ((a + 1 + j) % n) = false := by
  unfold elect order
  rw [List.find?_map, Option.map_eq_some_iff]
  constructor
  · rintro ⟨k, hfind, rfl⟩
    have hk := List.mem_range.mp (List.mem_of_find?_eq_some hfind)
    have hready : (ready ∘ fun k => (a + 1 + k) % n) k = true := List.find?_some hfind
    refine ⟨hready, k, ⟨hk, rfl⟩, fun j hj => ?_⟩
    obtain ⟨-, i, hi, hget, hbefore⟩ := List.find?_eq_some_iff_getElem.mp hfind
    rw [List.getElem_range] at hget
    have := hbefore j (hget ▸ hj)
    rw [List.getElem_range] at this
    simpa using this
  · rintro ⟨hready, k, ⟨hk, rfl⟩, hbefore⟩
    refine ⟨k, ?_, rfl⟩
    rw [List.find?_eq_some_iff_getElem]
    refine ⟨hready, k, by simpa using hk, List.getElem_range _, fun j hj => ?_⟩
    rw [List.getElem_range]
    simp [hbefore j hj]

/-- When a place is ready, one is chosen. -/
theorem exists_elect (ha : a < n) (hi : i < n) (hready : ready i = true) :
    ∃ b, elect n ready a = some b := by
  obtain ⟨k, hk, hki⟩ := exists_ahead ha hi
  rw [← Option.isSome_iff_exists]
  unfold elect
  rw [List.find?_isSome]
  exact ⟨i, List.mem_map.mpr ⟨k, List.mem_range.mpr hk, hki⟩, hready⟩

theorem elect_lt (hn : 0 < n) (h : elect n ready a = some b) : b < n := by
  obtain ⟨-, k, ⟨-, rfl⟩, -⟩ := elect_eq_some_iff.mp h
  exact Nat.mod_lt _ hn

/-- A place that is ready and not chosen comes nearer. -/
theorem Ahead.step (h : Ahead n a i k) (hready : ready i = true)
    (helect : elect n ready a = some b) (hne : b ≠ i) : ∃ k', k' < k ∧ Ahead n b i k' := by
  obtain ⟨-, j, ⟨hj, hjb⟩, hbefore⟩ := elect_eq_some_iff.mp helect
  have hjk : j < k := by
    rcases Nat.lt_trichotomy j k with hlt | rfl | hgt
    · exact hlt
    · exact absurd (hjb.symm.trans h.2) hne
    · have := hbefore k hgt
      rw [h.2, hready] at this
      exact absurd this (by simp)
  have hkn : k < n := h.1
  refine ⟨k - j - 1, by omega, by omega, ?_⟩
  have hsum : a + 1 + j + (1 + (k - j - 1)) = a + 1 + k := by omega
  rw [← hjb, Nat.add_assoc, Nat.mod_add_mod, hsum, h.2]

/-- The last choice is chosen again only when nothing else is ready. -/
theorem elect_self (ha : a < n) (helect : elect n ready a = some a) (hi : i < n)
    (hready : ready i = true) : i = a := by
  by_contra hne
  obtain ⟨k, hk⟩ := exists_ahead ha hi
  obtain ⟨-, j, hj, hbefore⟩ := elect_eq_some_iff.mp helect
  have hlast : j = n - 1 := hj.unique (ahead_self ha)
  have hkn : k < n := hk.1
  rcases Nat.lt_or_ge k j with hlt | hge
  · have := hbefore k hlt
    rw [hk.2, hready] at this
    exact absurd this (by simp)
  · have hkj : k = j := by omega
    exact hne (hk.2.symm.trans (hkj ▸ hj.2))

/-! ## Choices one after another -/

/-- The choices `bs` are made one after another, from the last choice `a` to the last
choice `b`; at each of them `i` is ready. -/
inductive Choices (n i : Nat) : Nat → List Nat → Nat → Prop where
  | nil (a : Nat) : Choices n i a [] a
  | snoc {ready : Nat → Bool} {a b c : Nat} {bs : List Nat} : Choices n i a bs b →
      ready i = true → elect n ready b = some c → Choices n i a (bs ++ [c]) c

theorem Choices.lt {bs : List Nat} (hc : Choices n i a bs b) (ha : a < n) : b < n := by
  cases hc with
  | nil => exact ha
  | snoc _ _ helect => exact elect_lt (Nat.lt_of_le_of_lt (Nat.zero_le a) ha) helect

/-- Each choice of another place brings `i` nearer. -/
theorem Choices.ahead {bs : List Nat} (hc : Choices n i a bs b) (hk : Ahead n a i k)
    (hothers : ∀ b ∈ bs, b ≠ i) : ∃ k', Ahead n b i k' ∧ k' + bs.length ≤ k := by
  induction hc with
  | nil => exact ⟨k, hk, Nat.le_refl k⟩
  | @snoc ready a b c bs _ hready helect ih =>
    obtain ⟨k', hk', hle⟩ := ih hk fun b hb => hothers b (List.mem_append_left _ hb)
    obtain ⟨k'', hlt, hk''⟩ := hk'.step hready helect (hothers c (by simp))
    refine ⟨k'', hk'', ?_⟩
    rw [List.length_append, List.length_singleton]
    omega

/-- There are fewer than `n` choices before that of `i`. -/
theorem Choices.length_lt {bs : List Nat} (hc : Choices n i a bs b) (ha : a < n) (hi : i < n)
    (hothers : ∀ b ∈ bs, b ≠ i) : bs.length < n := by
  obtain ⟨k, hk⟩ := exists_ahead ha hi
  obtain ⟨k', -, hle⟩ := hc.ahead hk hothers
  have hkn : k < n := hk.1
  omega

/-- After `n - 1` choices of others it is the turn of `i`. -/
theorem Choices.next {bs : List Nat} {c : Nat} (hc : Choices n i a bs b) (ha : a < n) (hi : i < n)
    (hothers : ∀ b ∈ bs, b ≠ i) (hlen : n ≤ bs.length + 1) (hready : ready i = true)
    (helect : elect n ready b = some c) : c = i := by
  by_contra hne
  have hc' : Choices n i a (bs ++ [c]) c := hc.snoc hready helect
  have hlt := hc'.length_lt ha hi fun b hb => by
    rcases List.mem_append.mp hb with hb | hb
    · exact hothers b hb
    · rw [List.mem_singleton.mp hb]
      exact hne
  rw [List.length_append, List.length_singleton] at hlt
  omega

end Ko6.Lib.RoundRobin
