import Ko6.Lib.Mem

set_option autoImplicit false

/-!
# Common: strings

A C string is the list of its bytes before the terminating NUL.  `strcmp` and
`strlen` are on such strings; `strncmp` reads a bounded number of bytes and is on
byte streams, so that a name that fills its array needs no NUL.
-/

namespace Ko6.Common

open Ko6.Lib

/-- A string: the characters before the final 0. -/
structure CStr where
  chars : List (BitVec 8)
  nonzero : ∀ c ∈ chars, c ≠ 0
  deriving DecidableEq

namespace CStr

/-- `s[i]`; the NUL stands after the last byte. -/
def byte (s : CStr) (i : Nat) : BitVec 8 := s.chars.getD i 0

theorem byte_eq_zero_iff (s : CStr) (i : Nat) : s.byte i = 0 ↔ s.chars.length ≤ i := by
  unfold CStr.byte
  constructor
  · intro h
    by_contra hlt
    rw [List.getD_eq_getElem s.chars 0 (by omega)] at h
    exact s.nonzero _ (List.getElem_mem (by omega)) h
  · intro h
    exact List.getD_eq_default s.chars 0 h

theorem byte_of_lt (s : CStr) {i : Nat} (h : i < s.chars.length) : s.byte i = s.chars[i] :=
  List.getD_eq_getElem s.chars 0 h

end CStr

/-- `'/'`. -/
def slash : BitVec 8 := 47

/-- `strlen`. -/
def strlen (s : CStr) : Nat := s.chars.length

/-- Strings are equal when their bytes are, each NUL included. -/
theorem CStr.eq_of_byte {s t : CStr}
    (h : ∀ i, i ≤ strlen s → i ≤ strlen t → s.byte i = t.byte i) : s = t := by
  unfold strlen at h
  have hlen : s.chars.length = t.chars.length := by
    rcases Nat.lt_trichotomy s.chars.length t.chars.length with hlt | heq | hlt
    · have hzero := h _ (Nat.le_refl _) (Nat.le_of_lt hlt)
      rw [(s.byte_eq_zero_iff _).mpr (Nat.le_refl _), eq_comm, t.byte_eq_zero_iff] at hzero
      omega
    · exact heq
    · have hzero := h _ (Nat.le_of_lt hlt) (Nat.le_refl _)
      rw [(t.byte_eq_zero_iff _).mpr (Nat.le_refl _), s.byte_eq_zero_iff] at hzero
      omega
  have hchars : s.chars = t.chars := by
    refine List.ext_getElem hlen fun i hi hi' => ?_
    rw [← s.byte_of_lt hi, ← t.byte_of_lt hi']
    exact h i (Nat.le_of_lt hi) (Nat.le_of_lt hi')
  obtain ⟨chars, hnz⟩ := s
  obtain ⟨chars', hnz'⟩ := t
  obtain rfl : chars = chars' := hchars
  rfl

/-- `strcmp`. -/
def strcmp : List (BitVec 8) → List (BitVec 8) → Int
  | [], [] => 0
  | [], c2 :: _ => 0 - (c2.toNat : Int)
  | c1 :: _, [] => c1.toNat
  | c1 :: s1, c2 :: s2 => if c1 = c2 then strcmp s1 s2 else (c1.toNat : Int) - c2.toNat

theorem strcmp_eq_zero {s1 s2 : List (BitVec 8)} (h1 : ∀ c ∈ s1, c ≠ 0) (h2 : ∀ c ∈ s2, c ≠ 0) :
    strcmp s1 s2 = 0 ↔ s1 = s2 := by
  induction s1 generalizing s2 with
  | nil =>
    cases s2 with
    | nil => simp [strcmp]
    | cons c2 s2 =>
      have hc := h2 c2 (by simp)
      simp only [strcmp, reduceCtorEq, iff_false]
      intro h0
      exact hc (BitVec.eq_of_toNat_eq (by simp; omega))
  | cons c1 s1 ih =>
    cases s2 with
    | nil =>
      have hc := h1 c1 (by simp)
      simp only [strcmp, reduceCtorEq, iff_false]
      intro h0
      exact hc (BitVec.eq_of_toNat_eq (by simp; omega))
    | cons c2 s2 =>
      have ih' := @ih s2 (fun c hc => h1 c (by simp [hc])) (fun c hc => h2 c (by simp [hc]))
      unfold strcmp
      by_cases hc : c1 = c2
      · rw [if_pos hc, ih', hc]
        simp
      · rw [if_neg hc]
        simp only [List.cons.injEq, hc, false_and, iff_false]
        intro h0
        exact hc (BitVec.eq_of_toNat_eq (by omega))

theorem strcmp_bounds (s1 s2 : List (BitVec 8)) : -256 < strcmp s1 s2 ∧ strcmp s1 s2 < 256 := by
  induction s1 generalizing s2 with
  | nil =>
    cases s2 with
    | nil => simp [strcmp]
    | cons c2 s2 =>
      have h := c2.isLt
      simp only [strcmp]
      omega
  | cons c1 s1 ih =>
    have h := c1.isLt
    cases s2 with
    | nil =>
      simp only [strcmp]
      omega
    | cons c2 s2 =>
      have h' := c2.isLt
      unfold strcmp
      split
      · exact ih s2
      · omega

theorem CStr.strcmp_eq_zero_iff {s t : CStr} : strcmp s.chars t.chars = 0 ↔ s = t := by
  rw [strcmp_eq_zero s.nonzero t.nonzero]
  obtain ⟨s, hs⟩ := s
  obtain ⟨t, ht⟩ := t
  rw [CStr.mk.injEq]

/-- `strncmp`: at most `n` bytes are read from each. -/
def strncmp : (Nat → BitVec 8) → (Nat → BitVec 8) → Nat → Int
  | _, _, 0 => 0
  | s, t, n + 1 =>
    if s 0 = 0 ∨ s 0 ≠ t 0 then (s 0).toNat - (t 0).toNat
    else strncmp (fun i => s (i + 1)) (fun i => t (i + 1)) n

/-- `strncmp` gives 0 when the bytes agree up to the first NUL. -/
theorem strncmp_eq_zero_iff {n : Nat} : ∀ {s t : Nat → BitVec 8},
    strncmp s t n = 0 ↔ ∀ i, i < n → (∀ j, j < i → s j ≠ 0) → s i = t i := by
  induction n with
  | zero =>
    intro s t
    simp [strncmp]
  | succ n ih =>
    intro s t
    have hdiff : ((s 0).toNat : Int) - (t 0).toNat = 0 ↔ s 0 = t 0 := by
      constructor
      · intro h
        apply BitVec.eq_of_toNat_eq
        omega
      · intro h
        rw [h]
        omega
    rw [strncmp]
    by_cases hend : s 0 = 0 ∨ s 0 ≠ t 0
    · rw [if_pos hend, hdiff]
      constructor
      · intro h0 i hi hj
        cases i with
        | zero => exact h0
        | succ i => exact absurd (hend.resolve_right (not_not.mpr h0)) (hj 0 (Nat.succ_pos i))
      · exact fun h => h 0 (Nat.succ_pos n) fun j hj => absurd hj (Nat.not_lt_zero j)
    · rw [if_neg hend, ih]
      obtain ⟨hne, heq⟩ := not_or.mp hend
      rw [not_not] at heq
      constructor
      · intro h i hi hj
        cases i with
        | zero => exact heq
        | succ i => exact h i (by omega) fun j hlt => hj (j + 1) (by omega)
      · intro h i hi hj
        refine h (i + 1) (by omega) fun j hlt => ?_
        cases j with
        | zero => exact hne
        | succ j => exact hj j (by omega)

/-- `strncmp` with a string in an array that has room for the other one and its NUL. -/
theorem strncmp_eq_iff {s t : CStr} {b : Nat → BitVec 8} {n : Nat} (hs : strlen s < n)
    (hb : ∀ i, i < n → b i = t.byte i) : strncmp s.byte b n = 0 ↔ s = t := by
  rw [strncmp_eq_zero_iff]
  constructor
  · intro h
    refine CStr.eq_of_byte fun i hi _ => ?_
    rw [h i (by omega) fun j hj hzero => ?_, hb i (by omega)]
    rw [s.byte_eq_zero_iff] at hzero
    unfold strlen at hi
    omega
  · rintro rfl i hi -
    exact (hb i hi).symm

/-- `strncmp` over the length of one string: the string is a prefix. -/
theorem strncmp_prefix_iff {s t : CStr} : strncmp s.byte t.byte (strlen t) = 0 ↔ t.chars <+: s.chars := by
  rw [strncmp_eq_zero_iff, List.prefix_iff_getElem]
  unfold strlen
  constructor
  · intro h
    have hat : ∀ i, i < t.chars.length → s.byte i = t.byte i := by
      intro i
      induction i using Nat.strong_induction_on with
      | _ i ih =>
        intro hi
        refine h i hi fun j hj hzero => ?_
        rw [ih j hj (by omega), t.byte_eq_zero_iff] at hzero
        omega
    have hle : t.chars.length ≤ s.chars.length := by
      by_contra hlt
      have hz := hat s.chars.length (by omega)
      rw [(s.byte_eq_zero_iff _).mpr (Nat.le_refl _)] at hz
      have := (t.byte_eq_zero_iff _).mp hz.symm
      omega
    refine ⟨hle, fun i hi => ?_⟩
    rw [← s.byte_of_lt, ← t.byte_of_lt hi]
    exact (hat i hi).symm
  · rintro ⟨hle, h⟩ i hi -
    rw [s.byte_of_lt (by omega), t.byte_of_lt hi]
    exact (h i hi).symm

end Ko6.Common
