import Ko6.Common.HtopenKeys

set_option autoImplicit false

/-!
# Common: the sizes of the hash tables

`hto_create` takes the largest prime up to the requested number of entries, and asks for
the bytes of the header and of that many slots.  The number of bytes is an `unsigned
long`: for most of the large requests it is above the limit of one page, but where it
passes 2³² it may come out small.  `largest_prime` also has no prime to return for the
requests 0 and 1, and its -1 is taken for a number of slots.
-/

namespace Ko6.Common

open Ko6.Lib

/-! ## Primes -/

section
variable {n i p : Nat}

/-- No number from 2 on and below `i` divides `n`. -/
def NoDivisor (n i : Nat) : Prop := ∀ j, 2 ≤ j → j < i → ¬ j ∣ n

theorem NoDivisor.succ (h : NoDivisor n i) (hi : ¬ i ∣ n) : NoDivisor n (i + 1) := by
  intro j hj hlt
  rcases Nat.lt_succ_iff_lt_or_eq.mp hlt with hlt | rfl
  · exact h j hj hlt
  · exact hi

theorem NoDivisor.prime (h : NoDivisor n i) (hn : 2 ≤ n) (hi : n < i * i) : n.Prime := by
  by_contra hp
  have hsq : n.minFac ^ 2 ≤ n := Nat.minFac_sq_le_self (by omega) hp
  have hlt : n.minFac < i := by
    by_contra hge
    have : i * i ≤ n.minFac * n.minFac := Nat.mul_le_mul (by omega) (by omega)
    rw [Nat.pow_two] at hsq
    omega
  exact h n.minFac (Nat.minFac_prime (by omega)).two_le hlt n.minFac_dvd

/-- A number for which the loop ends with a remainder is a prime; the loop ends before it
has run out of fuel, since `n` itself divides `n`. -/
theorem prime_of_divisorLoop (hn : 2 ≤ n) (fuel : Nat) (hi : 2 ≤ i) (hfuel : n + 2 ≤ fuel + i)
    (hp : p ≠ 0 → NoDivisor n i) (h : divisorLoop n fuel i p ≠ 0) : n.Prime := by
  induction fuel generalizing i p with
  | zero =>
    rw [divisorLoop] at h
    refine (hp h).prime hn ?_
    have : i * 1 ≤ i * i := Nat.mul_le_mul_left i (by omega)
    omega
  | succ fuel ih =>
    rw [divisorLoop] at h
    split at h
    · rename_i hcond
      refine ih (by omega) (by omega) (fun hmod => ?_) h
      exact (hp hcond.2).succ fun hdvd => hmod (Nat.mod_eq_zero_of_dvd hdvd)
    · rename_i hcond
      have hlt : n < i * i % 2 ^ 32 := by
        by_contra hle
        exact hcond ⟨by omega, h⟩
      exact (hp h).prime hn (Nat.lt_of_lt_of_le hlt (Nat.mod_le _ _))

/-- The loop ends with a remainder for the primes whose root is less than 65535: the
squares of its variable do not pass 2³². -/
theorem divisorLoop_of_prime (hp : n.Prime) (hn : n ≤ 65535 * 65535) (fuel : Nat) (hi : 2 ≤ i)
    (hroot : (i - 1) * (i - 1) ≤ n) (h0 : p ≠ 0) : divisorLoop n fuel i p ≠ 0 := by
  induction fuel generalizing i p with
  | zero => exact h0
  | succ fuel ih =>
    rw [divisorLoop]
    split
    · rename_i hcond
      -- 65535² is no prime, thus `i` is at most 65535 and its square is not cut
      have hsmall : i ≤ 65535 := by
        by_contra hgt
        have hmul : 65535 * 65535 ≤ (i - 1) * (i - 1) := Nat.mul_le_mul (by omega) (by omega)
        have heq : n = 65535 * 65535 := by omega
        rw [heq] at hp
        exact Nat.not_prime_mul (by decide) (by decide) hp
      have hmul : i * i ≤ 65535 * 65535 := Nat.mul_le_mul hsmall hsmall
      have hsq : i * i ≤ n := by
        have hle := hcond.1
        rwa [Nat.mod_eq_of_lt (by omega)] at hle
      have hlt : i < n := by
        have : i * 2 ≤ i * i := Nat.mul_le_mul_left i hi
        omega
      refine ih (by omega) (by simpa using hsq) fun hmod => ?_
      rcases (Nat.dvd_prime hp).mp (Nat.dvd_of_mod_eq_zero hmod) with h1 | h1 <;> omega
    · exact h0

/-- What `largest_prime` returns is a prime, and it is the largest one except perhaps
above 65535². -/
theorem largestPrime_spec (h2 : 2 ≤ n) :
    (largestPrime n).Prime ∧ largestPrime n ≤ n ∧
      ∀ q, q.Prime → q ≤ n → q ≤ 65535 * 65535 → q ≤ largestPrime n := by
  induction n with
  | zero => omega
  | succ n ih =>
    rw [largestPrime, if_pos (by omega)]
    split
    · rename_i hloop
      have hp : (n + 1).Prime := prime_of_divisorLoop h2 (n + 1) (Nat.le_refl 2) (by omega)
        (fun _ j hj hlt => by omega) hloop
      exact ⟨hp, Nat.le_refl _, fun q _ hq _ => hq⟩
    · rename_i hloop
      have hnot : ∀ q, q.Prime → q ≤ n + 1 → q ≤ 65535 * 65535 → q ≤ n := by
        intro q hq hle hsmall
        by_contra hgt
        obtain rfl : q = n + 1 := by omega
        exact hloop (divisorLoop_of_prime hq hsmall _ (Nat.le_refl 2) (by omega) (by decide))
      have hn : 2 ≤ n := hnot 2 Nat.prime_two h2 (by decide)
      obtain ⟨hp, hle, hmax⟩ := ih hn
      exact ⟨hp, by omega, fun q hq hqle hsmall => hmax q hq (hnot q hq hqle hsmall) hsmall⟩

/-- There is no prime up to 1. -/
theorem largestPrime_of_lt_two (h : n < 2) : largestPrime n = 2 ^ 32 - 1 := by
  match n, h with
  | 0, _ => rfl
  | 1, _ => rfl

theorem largestPrime_lt (h : n < 2 ^ 32) : largestPrime n < 2 ^ 32 := by
  rcases Nat.lt_or_ge n 2 with h2 | h2
  · rw [largestPrime_of_lt_two h2]
    decide
  · exact Nat.lt_of_le_of_lt (largestPrime_spec h2).2.1 h

end

/-! ## The bytes of a table -/

namespace Own

/-- The variable `s` of `hto_create`: the number of bytes requested. -/
def createBytes (nb : Nat) : Nat := (12 + largestPrime nb * 8) % 2 ^ 32

/-- The table that `hto_create` has made of a request: its size is a prime up to the
request, the field has it, and the slots that have been initialised are in the block. -/
structure CreateSafe (nb : Nat) (ht : Hto) : Prop where
  prime : ht.size.Prime
  le : ht.size ≤ nb
  field : ht.size = largestPrime nb
  block : 12 + largestPrime nb * 8 ≤ createBytes nb

/-- The bytes of a table of `p` slots pass 2³², and the rest is at most a page. -/
def Wraps (p : Nat) : Prop := 2 ^ 32 ≤ 12 + p * 8 ∧ (12 + p * 8) % 2 ^ 32 ≤ 4096

/-- There is a prime up to the request, and the bytes for the largest one do not come out
small. -/
def SafeRequest (nb : Nat) : Prop :=
  2 ≤ nb ∧ ∀ p, IsGreatest {q | q.Prime ∧ q ≤ nb} p → ¬ Wraps p

section
variable {nb type p : Nat} {malloc : Bool} {ht : Hto}

theorem htoCreate_eq (hc : htoCreate nb type malloc = some ht) :
    createBytes nb ≤ 4096 ∧ malloc = true ∧ ht.size = largestPrime nb % 2 ^ 30 ∧
      ht.empty = BitVec.ofNat 32 (largestPrime nb) ∧ ht.freed = 0 ∧ ∀ h, (ht.bucket h).key = 0 := by
  unfold htoCreate at hc
  simp only at hc
  split at hc
  · exact absurd hc (by simp)
  rename_i hle
  split at hc
  · rename_i hm
    rw [Option.some.injEq] at hc
    subst hc
    exact ⟨Nat.not_lt.mp hle, hm, rfl, rfl, rfl, fun _ => rfl⟩
  · exact absurd hc (by simp)

theorem htoCreate_isSome (type : Nat) (hle : createBytes nb ≤ 4096) :
    ∃ ht, htoCreate nb type true = some ht := by
  unfold htoCreate
  simp only [if_true]
  exact ⟨_, if_neg (Nat.not_lt.mpr hle)⟩

/-- A prime between 7·2²⁹ and 65535²: 125·2²⁵ + 1, with the primitive root 3. -/
theorem prime_4194304001 : Nat.Prime 4194304001 := by
  refine lucas_primality 4194304001 3 (by reduce_mod_char) fun q hq hdvd => ?_
  have hfactor : q ∣ 2 ^ 25 * 5 ^ 3 := hdvd
  rcases hq.dvd_mul.mp hfactor with h | h
  · obtain rfl := (Nat.prime_dvd_prime_iff_eq hq Nat.prime_two).mp (hq.dvd_of_dvd_pow h)
    have hpow : (3 : ZMod 4194304001) ^ 2097152000 ≠ 1 := by
      reduce_mod_char
      decide
    exact hpow
  · obtain rfl := (Nat.prime_dvd_prime_iff_eq hq Nat.prime_five).mp (hq.dvd_of_dvd_pow h)
    have hpow : (3 : ZMod 4194304001) ^ 838860800 ≠ 1 := by
      reduce_mod_char
      decide
    exact hpow

theorem createBytes_lt : createBytes nb < 2 ^ 32 := Nat.mod_lt _ (by decide)

theorem not_prime_max : ¬ Nat.Prime (2 ^ 32 - 1) := by norm_num

/-- Above 7·2²⁹ + 510 no prime wraps. -/
theorem Wraps.le (hw : Wraps p) (hp : p.Prime) (hlt : p < 2 ^ 32) : p ≤ 3758096894 := by
  obtain ⟨-, hle⟩ := hw
  have hne : p ≠ 2 ^ 32 - 1 := by
    rintro rfl
    exact not_prime_max hp
  omega

/-- A prime of `largest_prime` that wraps is the largest prime up to the request. -/
theorem Wraps.isGreatest (hw : Wraps (largestPrime nb)) (h2 : 2 ≤ nb) (hlt : nb < 2 ^ 32) :
    IsGreatest {q | q.Prime ∧ q ≤ nb} (largestPrime nb) := by
  obtain ⟨hprime, hle, hlargest⟩ := largestPrime_spec h2
  refine ⟨⟨hprime, hle⟩, fun q ⟨hq, hqle⟩ => ?_⟩
  by_cases hsmall : q ≤ 65535 * 65535
  · exact hlargest q hq hqle hsmall
  · have hbound := hw.le hprime (Nat.lt_of_le_of_lt hle hlt)
    have hmiss := hlargest 4194304001 prime_4194304001 (by omega) (by decide)
    omega

/-- A request for which the bytes do not pass 2³². -/
theorem createSafe_of_lt (h2 : 2 ≤ nb) (hlt : 12 + largestPrime nb * 8 < 2 ^ 32)
    (hc : htoCreate nb type malloc = some ht) : CreateSafe nb ht := by
  obtain ⟨hprime, hle, -⟩ := largestPrime_spec h2
  obtain ⟨hbytes, -, hsize, -⟩ := htoCreate_eq hc
  have heq : createBytes nb = 12 + largestPrime nb * 8 := Nat.mod_eq_of_lt hlt
  have hfield : ht.size = largestPrime nb := by
    rw [hsize, Nat.mod_eq_of_lt (by omega)]
  exact ⟨hfield ▸ hprime, hfield ▸ hle, hfield, Nat.le_of_eq heq.symm⟩

/-- `hto_create` makes a safe table, or none, exactly when `MALLOC` gives no block or the
request is safe. -/
theorem htoCreate_safe_iff (nb : BitVec 32) (type : Nat) (malloc : Bool) :
    (∀ ht, htoCreate nb.toNat type malloc = some ht → CreateSafe nb.toNat ht) ↔
      (malloc = true → SafeRequest nb.toNat) := by
  obtain ⟨n, hn⟩ : ∃ n, n = nb.toNat := ⟨_, rfl⟩
  have hlt : n < 2 ^ 32 := hn ▸ nb.isLt
  rw [← hn]
  constructor
  · rintro hsafe rfl
    have hblock : createBytes n ≤ 4096 → 12 + largestPrime n * 8 < 2 ^ 32 := by
      intro hle
      obtain ⟨ht, hht⟩ := htoCreate_isSome type hle
      exact Nat.lt_of_le_of_lt (hsafe ht hht).block createBytes_lt
    have h2 : 2 ≤ n := by
      by_contra h2
      unfold createBytes at hblock
      rw [largestPrime_of_lt_two (Nat.not_le.mp h2)] at hblock
      exact absurd (hblock (by decide)) (by decide)
    refine ⟨h2, ?_⟩
    rintro p ⟨⟨hp, hpn⟩, hmax⟩ hw
    obtain ⟨hprime, hle, hlargest⟩ := largestPrime_spec h2
    have hsmall := hw.le hp (Nat.lt_of_le_of_lt hpn hlt)
    have heq : largestPrime n = p :=
      Nat.le_antisymm (hmax ⟨hprime, hle⟩) (hlargest p hp hpn (by omega))
    unfold createBytes at hblock
    rw [heq] at hblock
    exact absurd (hblock hw.2) (Nat.not_lt.mpr hw.1)
  · intro hreq ht hc
    obtain ⟨hbytes, hm, -⟩ := htoCreate_eq hc
    obtain ⟨h2, hno⟩ := hreq hm
    refine createSafe_of_lt h2 ?_ hc
    by_contra hge
    have hw : Wraps (largestPrime n) := ⟨Nat.not_lt.mp hge, hbytes⟩
    exact hno _ (hw.isGreatest h2 hlt) hw

/-- For the request 1 four bytes are asked for, and the loop initialises 2³² - 1 slots.
For 2²⁹ + 11, which is a prime, 100 bytes are asked for. -/
theorem hto_create_not_safe :
    (∃ ht, htoCreate 1 0 true = some ht ∧ createBytes 1 = 4 ∧ largestPrime 1 = 2 ^ 32 - 1 ∧
      ¬ CreateSafe 1 ht) ∧
    ∃ ht, htoCreate 536870923 0 true = some ht ∧ createBytes 536870923 = 100 ∧
      largestPrime 536870923 = 536870923 ∧ ¬ CreateSafe 536870923 ht := by
  have hbytes : createBytes 1 = 4 := rfl
  have hloop : divisorLoop 536870923 536870923 2 1 ≠ 0 := by decide +kernel
  have hprime : largestPrime 536870923 = 536870923 := by
    rw [largestPrime, if_pos (by decide), if_pos hloop]
  have hbytes' : createBytes 536870923 = 100 := by
    rw [createBytes, hprime]
    decide
  constructor
  · obtain ⟨ht, hc⟩ := htoCreate_isSome 0 (show createBytes 1 ≤ 4096 by rw [hbytes]; decide)
    refine ⟨ht, hc, hbytes, rfl, fun hsafe => ?_⟩
    have hblock := hsafe.block
    rw [hbytes] at hblock
    exact absurd hblock (by decide)
  · obtain ⟨ht, hc⟩ := htoCreate_isSome 0
      (show createBytes 536870923 ≤ 4096 by rw [hbytes']; decide)
    refine ⟨ht, hc, hbytes', hprime, fun hsafe => ?_⟩
    have hblock := hsafe.block
    rw [hbytes', hprime] at hblock
    exact absurd hblock (by decide)

end

end Own

end Ko6.Common
