import Ko6.Common.HtopenCreate

set_option autoImplicit false

/-!
# Common: the prime search of the hash tables

`largest_prime` in the arithmetic of the machine.  The test of a number divides it by 2, 3
and so on, up to its root or to a remainder 0.  Below 2³¹ the variable stays below 46342, so
that its square is not cut; the search ends since 2 is a prime.
-/

namespace Ko6.Common

/-- The inner loop of `largest_prime`, in at most so many turns: the last remainder. -/
def divisorTurns (n : BitVec 32) : Nat → BitVec 32 → BitVec 32 → Option (BitVec 32)
  | 0, _, _ => none
  | turns + 1, i, p =>
    if i * i ≤ n ∧ p ≠ 0 then divisorTurns n turns (i + 1) (n % i) else some p

/-- `largest_prime`, whose loops take at most so many turns. -/
def largestPrimeTurns : Nat → BitVec 32 → Option (BitVec 32)
  | 0, _ => none
  | turns + 1, n =>
    if n > 1 then do
      let p ← divisorTurns n turns 2 1
      if p ≠ 0 then some n else largestPrimeTurns turns (n - 1)
    else some (-1)

section
variable {n i p : BitVec 32}

/-- The square of the variable is not cut, and its successor is no more than the number. -/
theorem square_toNat (hlt : n.toNat < 2 ^ 31) (hroot : (i.toNat - 1) * (i.toNat - 1) ≤ n.toNat) :
    (i * i).toNat = i.toNat * i.toNat := by
  have hsmall : i.toNat ≤ 46341 := by
    by_contra hgt
    have hmul : 46341 * 46341 ≤ (i.toNat - 1) * (i.toNat - 1) := Nat.mul_le_mul (by omega) (by omega)
    omega
  have hmul : i.toNat * i.toNat ≤ 46341 * 46341 := Nat.mul_le_mul hsmall hsmall
  rw [BitVec.toNat_mul, Nat.mod_eq_of_lt (by omega)]

/-- The next remainder tells whether there is still no divisor. -/
theorem NoDivisor.succ_iff {n i : Nat} (h : NoDivisor n i) (hi : 2 ≤ i) :
    n % i ≠ 0 ↔ NoDivisor n (i + 1) := by
  constructor
  · exact fun hmod => h.succ fun hdvd => hmod (Nat.mod_eq_zero_of_dvd hdvd)
  · exact fun h' hmod => h' i hi (Nat.lt_succ_self i) (Nat.dvd_of_mod_eq_zero hmod)

/-- The loop ends, with a remainder exactly for a prime. -/
theorem divisorTurns_spec (hlt : n.toNat < 2 ^ 31) : ∀ (turns : Nat) (i p : BitVec 32),
    2 ≤ i.toNat → i.toNat ≤ n.toNat → (i.toNat - 1) * (i.toNat - 1) ≤ n.toNat →
    (p ≠ 0 ↔ NoDivisor n.toNat i.toNat) → n.toNat < turns + i.toNat →
    ∃ r, divisorTurns n turns i p = some r ∧ (r ≠ 0 ↔ n.toNat.Prime)
  | 0, _, _, _, hi, _, _, hturns => by omega
  | turns + 1, i, p, h2, hi, hroot, hp, hturns => by
    have hsq := square_toNat hlt hroot
    rw [divisorTurns]
    by_cases hcond : i * i ≤ n ∧ p ≠ 0
    · rw [if_pos hcond]
      have hle : i.toNat * i.toNat ≤ n.toNat := hsq ▸ BitVec.le_def.mp hcond.1
      have hdouble : i.toNat * 2 ≤ i.toNat * i.toNat := Nat.mul_le_mul_left _ h2
      have hsucc : (i + 1).toNat = i.toNat + 1 := by
        rw [BitVec.toNat_add, show (1 : BitVec 32).toNat = 1 from rfl, Nat.mod_eq_of_lt (by omega)]
      refine divisorTurns_spec hlt turns (i + 1) (n % i) (by omega) (by omega) ?_ ?_ (by omega)
      · rwa [hsucc, Nat.add_sub_cancel]
      · rw [hsucc, ← (hp.mp hcond.2).succ_iff h2, ← BitVec.toNat_umod]
        exact not_congr (BitVec.toNat_inj (y := (0 : BitVec 32))).symm
    · rw [if_neg hcond]
      refine ⟨p, rfl, fun hne => ?_, fun hprime => ?_⟩
      · have hgt : n.toNat < i.toNat * i.toNat := by
          rw [← hsq]
          exact Nat.not_le.mp fun hle => hcond ⟨BitVec.le_def.mpr hle, hne⟩
        exact (hp.mp hne).prime (by omega) hgt
      · -- a divisor below `i` is neither 1 nor the prime itself
        refine hp.mpr fun j hj hji hdvd => ?_
        rcases (Nat.dvd_prime hprime).mp hdvd with h1 | h1
        · omega
        · omega

/-- The search ends with the greatest prime. -/
theorem largestPrimeTurns_spec : ∀ (turns : Nat) (n : BitVec 32), 2 ≤ n.toNat → n.toNat < 2 ^ 31 →
    n.toNat ≤ turns → ∃ r, largestPrimeTurns turns n = some r ∧
      IsGreatest {q | q.Prime ∧ q ≤ n.toNat} r.toNat
  | 0, _, h2, _, hturns => by omega
  | turns + 1, n, h2, hlt, hturns => by
    have hnone : NoDivisor n.toNat 2 := fun j hj hj' => by omega
    obtain ⟨p, hp, hprime⟩ := divisorTurns_spec hlt turns 2 1 (Nat.le_refl 2) h2
      (by show 1 * 1 ≤ n.toNat; omega) (iff_of_true (by decide) hnone)
      (by show n.toNat < turns + 2; omega)
    have hgt : n > 1 := BitVec.lt_def.mpr h2
    rw [largestPrimeTurns, if_pos hgt, hp, Option.bind_eq_bind, Option.bind_some]
    by_cases hzero : p ≠ 0
    · rw [if_pos hzero]
      exact ⟨n, rfl, ⟨hprime.mp hzero, Nat.le_refl _⟩, fun q hq => hq.2⟩
    · rw [if_neg hzero]
      have hnot : ¬ n.toNat.Prime := fun h => hzero (hprime.mpr h)
      have hne : n.toNat ≠ 2 := fun heq => hnot (heq ▸ Nat.prime_two)
      have hpred : (n - 1).toNat = n.toNat - 1 :=
        BitVec.toNat_sub_of_le (BitVec.le_def.mpr (Nat.le_of_lt h2))
      obtain ⟨r, hr, ⟨hrprime, hle⟩, hmax⟩ :=
        largestPrimeTurns_spec turns (n - 1) (by omega) (by omega) (by omega)
      refine ⟨r, hr, ⟨hrprime, by omega⟩, fun q hq => hmax ⟨hq.1, ?_⟩⟩
      have hqn : q ≠ n.toNat := fun heq => hnot (heq ▸ hq.1)
      have hqle : q ≤ n.toNat := hq.2
      omega

/-- For every number from 2 to 2³¹ - 1 the loops of `largest_prime` end, and it returns the
greatest prime not above the number. -/
theorem largestPrime_isGreatest (h2 : 2 ≤ n.toNat) (hlt : n.toNat < 2 ^ 31) :
    (∀ turns, n.toNat ≤ turns →
      largestPrimeTurns turns n = some (BitVec.ofNat 32 (largestPrime n.toNat))) ∧
    IsGreatest {q | q.Prime ∧ q ≤ n.toNat} (largestPrime n.toNat) := by
  obtain ⟨hprime, hle, hmax⟩ := largestPrime_spec h2
  have hgreatest : IsGreatest {q | q.Prime ∧ q ≤ n.toNat} (largestPrime n.toNat) :=
    ⟨⟨hprime, hle⟩, fun q hq => hmax q hq.1 hq.2 (Nat.le_trans hq.2 (by omega))⟩
  refine ⟨fun turns hturns => ?_, hgreatest⟩
  obtain ⟨r, hr, hr'⟩ := largestPrimeTurns_spec turns n h2 hlt hturns
  rw [hr, ← hr'.unique hgreatest, BitVec.ofNat_toNat, BitVec.setWidth_eq]

end

/-- 10, 9 and 8 are no primes. -/
theorem largestPrime_isGreatest_ten :
    largestPrimeTurns 10 10 = some 7 ∧ IsGreatest {q | q.Prime ∧ q ≤ 10} 7 := by
  have hseven : largestPrime 10 = 7 := by decide
  obtain ⟨hturns, hgreatest⟩ := largestPrime_isGreatest (n := 10) (by decide) (by decide)
  rw [show (10 : BitVec 32).toNat = 10 from rfl, hseven] at hturns hgreatest
  exact ⟨hturns 10 (Nat.le_refl _), hgreatest⟩

end Ko6.Common
