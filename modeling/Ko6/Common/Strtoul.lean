import Ko6.Lib.Numerals

set_option autoImplicit false

/-!
# Common: `strtoul`

A string is the list of its bytes before the NUL, and a pointer into it what is left
of the list.  The function wants to know before each digit whether there is room for
it.  It compares the value so far with the quotient of the greatest number by the
base, and takes the digit only below it: what it can return is below that quotient
times the base.
-/

namespace Ko6.Common

open Ko6.Lib

/-! ## Model -/

/-- `ULONG_MAX`: an unsigned long has 32 bits. -/
def ulongMax : BitVec 32 := BitVec.allOnes 32

/-- The white space that is skipped. -/
def isWhite (c : BitVec 8) : Bool :=
  c = chr ' ' || c = chr '\t' || c = chr '\n' || c = 11 || c = 12 || c = chr '\r'

/-- The value of a digit or letter. -/
def charDigit (c : BitVec 8) : Option (BitVec 8) :=
  if chr '0' ≤ c ∧ c ≤ chr '9' then some (c - chr '0')
  else if chr 'a' ≤ c ∧ c ≤ chr 'z' then some (c - chr 'a' + 10)
  else if chr 'A' ≤ c ∧ c ≤ chr 'Z' then some (c - chr 'A' + 10)
  else none

/-- The base that the string itself tells, 0 if it does not, and what is behind its prefix. -/
def guessBase : List (BitVec 8) → Int × List (BitVec 8)
  | [] => (0, [])
  | c :: s =>
    if c = chr '0' then
      match s with
      | [] => (0, [])
      | x :: s' =>
        if x = chr 'x' ∨ x = chr 'X' then (16, s')
        else if chr '0' ≤ x ∧ x ≤ chr '9' then (8, s)
        else (0, s)
    else if chr '0' ≤ c ∧ c ≤ chr '9' then (10, c :: s)
    else (0, c :: s)

/-- The loop over the digits: the value, whether it overflows, and where it ends. -/
def strtoulLoop (base : Int) : List (BitVec 8) → BitVec 32 → BitVec 32 × Bool × List (BitVec 8)
  | [], n => (n, false, [])
  | ch :: s, n =>
    match charDigit ch with
    | none => (n, false, ch :: s)
    | some c =>
      if (c.toNat : Int) ≥ base then (n, false, ch :: s)
      else if n < ulongMax / BitVec.ofInt 32 base ∧
          n * BitVec.ofInt 32 base < ulongMax - c.setWidth 32 then
        strtoulLoop base s (n * BitVec.ofInt 32 base + c.setWidth 32)
      else (n, true, ch :: s)

/-- `strtoul`: the value, and the string at `*endptr`. -/
def strtoul (s : List (BitVec 8)) (base : Int) : BitVec 32 × List (BitVec 8) :=
  let s := s.dropWhile isWhite
  let s := if s.head? = some (chr '+') then s.tail else s
  let (base, s) := if base = 0 then guessBase s else (base, s)
  if base = 0 then (0, s)
  else
    let (n, overflow, s) := strtoulLoop base s 0
    (if overflow then 0 else n, s)

/-! ## Digits -/

/-- `c` is the digit of value `d`, in upper or lower case. -/
def DigitOf (d : Nat) (c : BitVec 8) : Prop := c = lowerDigit d ∨ c = upperDigit d

theorem charDigit_lower : ∀ d, d < 36 → charDigit (lowerDigit d) = some (BitVec.ofNat 8 d) ∧
    charDigit (upperDigit d) = some (BitVec.ofNat 8 d) := by
  decide

theorem digit_not_white : ∀ d, d < 36 → isWhite (lowerDigit d) = false ∧
    isWhite (upperDigit d) = false ∧ lowerDigit d ≠ chr '+' ∧ upperDigit d ≠ chr '+' := by
  decide

/-- A character of some value is the digit of that value. -/
theorem digitOf_of_charDigit {c v : BitVec 8} (h : charDigit c = some v) : DigitOf v.toNat c := by
  have hc := c.isLt
  unfold charDigit at h
  split at h
  · rename_i hrange
    obtain rfl := Option.some.inj h
    have h₁ : 48 ≤ c.toNat := hrange.1
    have h₂ : c.toNat ≤ 57 := hrange.2
    have hv : (c - chr '0').toNat = c.toNat - 48 := BitVec.toNat_sub_of_le hrange.1
    refine .inl (BitVec.eq_of_toNat_eq ?_)
    rw [lowerDigit, hv, if_pos (by omega), BitVec.toNat_ofNat]
    omega
  · split at h
    · rename_i hrange
      obtain rfl := Option.some.inj h
      have h₁ : 97 ≤ c.toNat := hrange.1
      have h₂ : c.toNat ≤ 122 := hrange.2
      have hv : (c - chr 'a' + 10).toNat = c.toNat - 97 + 10 := by
        have hsub : (c - chr 'a').toNat = c.toNat - 97 := BitVec.toNat_sub_of_le hrange.1
        rw [BitVec.toNat_add, hsub]
        exact (by omega : (c.toNat - 97 + 10) % 256 = c.toNat - 97 + 10)
      refine .inl (BitVec.eq_of_toNat_eq ?_)
      rw [lowerDigit, hv, if_neg (by omega), BitVec.toNat_ofNat]
      omega
    · split at h
      · rename_i hrange
        obtain rfl := Option.some.inj h
        have h₁ : 65 ≤ c.toNat := hrange.1
        have h₂ : c.toNat ≤ 90 := hrange.2
        have hv : (c - chr 'A' + 10).toNat = c.toNat - 65 + 10 := by
          have hsub : (c - chr 'A').toNat = c.toNat - 65 := BitVec.toNat_sub_of_le hrange.1
          rw [BitVec.toNat_add, hsub]
          exact (by omega : (c.toNat - 65 + 10) % 256 = c.toNat - 65 + 10)
        refine .inr (BitVec.eq_of_toNat_eq ?_)
        rw [upperDigit, hv, if_neg (by omega), BitVec.toNat_ofNat]
        omega
      · exact absurd h (by simp)

section
variable {b d n : Nat} {c : BitVec 8} {cs rest : List (BitVec 8)} {ds : List Nat}

theorem DigitOf.charDigit_eq (h : DigitOf d c) (hd : d < 36) :
    charDigit c = some (BitVec.ofNat 8 d) := by
  rcases h with rfl | rfl
  · exact (charDigit_lower d hd).1
  · exact (charDigit_lower d hd).2

theorem DigitOf.not_white (h : DigitOf d c) (hd : d < 36) : isWhite c = false ∧ c ≠ chr '+' := by
  obtain ⟨hlw, huw, hlp, hup⟩ := digit_not_white d hd
  rcases h with rfl | rfl
  · exact ⟨hlw, hlp⟩
  · exact ⟨huw, hup⟩

/-! ## The loop -/

/-- The greatest value, and one more, that a number in base `b` can have here. -/
def strtoulLimit (b : Nat) : Nat := (2 ^ 32 - 1) / b * b

/-- The two comparisons before a digit say that it keeps the value below the limit. -/
theorem roomForDigit_iff (hb : 1 < b) (hb' : b ≤ 36) (hd : d < b) (hn : n < strtoulLimit b) :
    (BitVec.ofNat 32 n < ulongMax / BitVec.ofInt 32 b ∧
      BitVec.ofNat 32 n * BitVec.ofInt 32 b < ulongMax - BitVec.ofNat 32 d) ↔
    n * b + d < strtoulLimit b := by
  unfold strtoulLimit at hn ⊢
  have hle := Nat.div_mul_le_self (2 ^ 32 - 1) b
  have hbase : (BitVec.ofInt 32 (b : Int)).toNat = b := by
    rw [BitVec.ofInt_natCast, BitVec.toNat_ofNat]
    omega
  have hmax : ulongMax.toNat = 2 ^ 32 - 1 := rfl
  have hn32 : (BitVec.ofNat 32 n).toNat = n := by
    rw [BitVec.toNat_ofNat]
    omega
  have hd32 : (BitVec.ofNat 32 d).toNat = d := by
    rw [BitVec.toNat_ofNat]
    omega
  have hsub : (ulongMax - BitVec.ofNat 32 d).toNat = 2 ^ 32 - 1 - d := by
    rw [BitVec.toNat_sub_of_le (by rw [BitVec.le_def, hd32, hmax]; omega), hmax, hd32]
  rw [BitVec.lt_def, BitVec.lt_def, BitVec.toNat_udiv, BitVec.toNat_mul, hn32, hmax, hbase, hsub]
  constructor
  · rintro ⟨hq, -⟩
    calc n * b + d < n * b + b := Nat.add_lt_add_left hd _
      _ = (n + 1) * b := (Nat.succ_mul n b).symm
      _ ≤ (2 ^ 32 - 1) / b * b := Nat.mul_le_mul_right b hq
  · intro hlt
    have hq : n < (2 ^ 32 - 1) / b :=
      Nat.lt_of_mul_lt_mul_right (Nat.lt_of_le_of_lt (Nat.le_add_right _ _) hlt)
    refine ⟨hq, ?_⟩
    rw [Nat.mod_eq_of_lt (by omega)]
    omega

/-- The loop takes the digits as long as the value stays below the limit. -/
theorem strtoulLoop_spec (hb : 1 < b) (hb' : b ≤ 36)
    (hrest : ∀ c ∈ rest.head?, ∀ d, d < b → ¬ DigitOf d c)
    (hdigits : List.Forall₂ (fun d c => d < b ∧ DigitOf d c) ds cs) :
    ∀ n, n < strtoulLimit b →
    if horner id b n ds < strtoulLimit b then
      strtoulLoop b (cs ++ rest) (BitVec.ofNat 32 n)
        = (BitVec.ofNat 32 (horner id b n ds), false, rest)
    else (strtoulLoop b (cs ++ rest) (BitVec.ofNat 32 n)).2.1 = true := by
  induction hdigits with
  | nil =>
    intro n hn
    have hhorner : horner id b n [] = n := rfl
    rw [hhorner, if_pos hn, List.nil_append]
    cases rest with
    | nil => rfl
    | cons c rest =>
      rw [strtoulLoop]
      cases hc : charDigit c with
      | none => rfl
      | some v =>
        have hge : (v.toNat : Int) ≥ b := by
          by_contra hlt
          exact hrest c rfl v.toNat (by omega) (digitOf_of_charDigit hc)
        simp only [if_pos hge]
  | @cons d c ds cs hdc _ ih =>
    intro n hn
    obtain ⟨hd, hdigit⟩ := hdc
    have hroom := roomForDigit_iff hb hb' hd hn
    have hd8 : (BitVec.ofNat 8 d).toNat = d := by
      rw [BitVec.toNat_ofNat]
      omega
    have hlt : ¬ ((BitVec.ofNat 8 d).toNat : Int) ≥ b := by
      rw [hd8]
      omega
    have hwiden : (BitVec.ofNat 8 d).setWidth 32 = BitVec.ofNat 32 d := by
      apply BitVec.eq_of_toNat_eq
      rw [BitVec.toNat_setWidth, hd8, BitVec.toNat_ofNat]
    have hhorner : horner id b n (d :: ds) = horner id b (n * b + d) ds := rfl
    rw [List.cons_append, strtoulLoop, hdigit.charDigit_eq (by omega), hhorner]
    simp only [if_neg hlt, hwiden]
    by_cases hnext : n * b + d < strtoulLimit b
    · have hvalue : BitVec.ofNat 32 n * BitVec.ofInt 32 b + BitVec.ofNat 32 d
          = BitVec.ofNat 32 (n * b + d) := by
        rw [BitVec.ofInt_natCast, BitVec.ofNat_add, BitVec.ofNat_mul]
      rw [if_pos (hroom.mpr hnext), hvalue]
      exact ih (n * b + d) hnext
    · -- the digit is refused, and the value only grows with the digits behind it
      have hgrow : n * b + d ≤ horner id b (n * b + d) ds := le_horner (by omega)
      rw [if_neg (by omega), if_neg (mt hroom.mp hnext)]

/-! ## The value returned -/

/-- A numeral in base `b` as a string: white space, a sign, the digits, and a character that
is none. -/
structure NumeralText (b : Nat) (ds : List Nat) (rest s : List (BitVec 8)) : Prop where
  digits : ds ≠ []
  split : ∃ ws sign cs, s = ws ++ (sign ++ (cs ++ rest)) ∧ (∀ c ∈ ws, isWhite c = true) ∧
    (sign = [] ∨ sign = [chr '+']) ∧
    List.Forall₂ (fun d c => d < b ∧ DigitOf d c) ds cs
  rest : ∀ c ∈ rest.head?, ∀ d, d < b → ¬ DigitOf d c

/-- White space and a sign are skipped. -/
theorem strtoul_eq_loop {ws sign : List (BitVec 8)} (hb : 1 < b) (hb' : b ≤ 36)
    (hws : ∀ c ∈ ws, isWhite c = true) (hsign : sign = [] ∨ sign = [chr '+'])
    (hdigits : List.Forall₂ (fun d c => d < b ∧ DigitOf d c) ds cs) (hne : ds ≠ []) :
    strtoul (ws ++ (sign ++ (cs ++ rest))) b =
      (if (strtoulLoop b (cs ++ rest) 0).2.1 then 0 else (strtoulLoop b (cs ++ rest) 0).1,
        (strtoulLoop b (cs ++ rest) 0).2.2) := by
  cases hdigits with
  | nil => exact absurd rfl hne
  | @cons d c ds cs hdc _ =>
    obtain ⟨hwhite, hplus⟩ := hdc.2.not_white (by omega)
    have hskip : (ws ++ (sign ++ (c :: cs ++ rest))).dropWhile isWhite
        = sign ++ (c :: cs ++ rest) := by
      rw [List.dropWhile_append_of_pos hws]
      rcases hsign with rfl | rfl
      · exact List.dropWhile_cons_of_neg (by simp [hwhite])
      · exact List.dropWhile_cons_of_neg (by decide)
    have hsigned : (if (sign ++ (c :: cs ++ rest)).head? = some (chr '+')
        then (sign ++ (c :: cs ++ rest)).tail else sign ++ (c :: cs ++ rest)) = c :: cs ++ rest := by
      rcases hsign with rfl | rfl
      · exact if_neg fun h => hplus (Option.some.inj h)
      · exact if_pos rfl
    have hbase : ¬ (b : Int) = 0 := by omega
    simp only [strtoul, hskip, hsigned, if_neg hbase]

theorem strtoul_spec {s : List (BitVec 8)} (hb : 1 < b) (hb' : b ≤ 36)
    (h : NumeralText b ds rest s) :
    if horner id b 0 ds < strtoulLimit b then
      strtoul s b = (BitVec.ofNat 32 (horner id b 0 ds), rest)
    else (strtoul s b).1 = 0 := by
  obtain ⟨ws, sign, cs, rfl, hws, hsign, hdigits⟩ := h.split
  have hpos : 0 < strtoulLimit b :=
    Nat.mul_pos (Nat.div_pos (by omega) (by omega)) (by omega)
  have hloop := strtoulLoop_spec hb hb' h.rest hdigits 0 hpos
  rw [strtoul_eq_loop hb hb' hws hsign hdigits h.digits]
  by_cases hlt : horner id b 0 ds < strtoulLimit b
  · rw [if_pos hlt] at hloop ⊢
    rw [show (0 : BitVec 32) = BitVec.ofNat 32 0 from rfl, hloop]
    rfl
  · rw [if_neg hlt] at hloop ⊢
    exact if_pos hloop

end

/-- `strtoul` is exact on a string of value `v`: the value and the end of the digits up to the
greatest unsigned long, and 0 above it. -/
def StrtoulExact (b v : Nat) (rest s : List (BitVec 8)) : Prop :=
  (v ≤ 2 ^ 32 - 1 → strtoul s b = (BitVec.ofNat 32 v, rest)) ∧
  (2 ^ 32 - 1 < v → (strtoul s b).1 = 0)

/-- `strtoul` is exact on a numeral except for the values from the quotient of `ULONG_MAX` by
the base, times the base, up to `ULONG_MAX`: these are refused as if they were greater. -/
theorem strtoul_exact_iff {b : Nat} (hb : 2 ≤ b) (hb' : b ≤ 36) {ds : List Nat}
    {rest s : List (BitVec 8)} (h : NumeralText b ds rest s) :
    StrtoulExact b (horner id b 0 ds) rest s ↔
      horner id b 0 ds < (2 ^ 32 - 1) / b * b ∨ 2 ^ 32 - 1 < horner id b 0 ds := by
  have hspec := strtoul_spec hb hb' h
  have hle : strtoulLimit b ≤ 2 ^ 32 - 1 := Nat.div_mul_le_self _ b
  have hpos : 0 < strtoulLimit b :=
    Nat.mul_pos (Nat.div_pos (by omega) (by omega)) (by omega)
  rw [← strtoulLimit]
  constructor
  · rintro ⟨hvalue, -⟩
    by_contra hnot
    obtain ⟨hge, hsmall⟩ := not_or.mp hnot
    rw [if_neg hge, hvalue (Nat.not_lt.mp hsmall)] at hspec
    -- the value returned would be 0, and it is not
    have hzero : (BitVec.ofNat 32 (horner id b 0 ds)).toNat = 0 := by
      rw [show BitVec.ofNat 32 (horner id b 0 ds) = 0 from hspec]
      rfl
    rw [BitVec.toNat_ofNat] at hzero
    omega
  · intro hcond
    refine ⟨fun hsmall => ?_, fun hbig => ?_⟩
    · rwa [if_pos (hcond.resolve_right (Nat.not_lt.mpr hsmall))] at hspec
    · rwa [if_neg (by omega)] at hspec

/-- `" +fFffFffe"` and a space, in base 16. -/
theorem strtoul_exact_iff_hex :
    StrtoulExact 16 (horner id 16 0 [15, 15, 15, 15, 15, 15, 14]) [chr ' ']
      ([chr ' ', chr '+', chr 'f', chr 'F', chr 'f', chr 'f', chr 'F', chr 'f', chr 'e', chr ' ']) := by
  refine (strtoul_exact_iff (by decide) (by decide) ⟨by decide, ?_, ?_⟩).mpr (.inl (by decide))
  · refine ⟨[chr ' '], [chr '+'], [chr 'f', chr 'F', chr 'f', chr 'f', chr 'F', chr 'f', chr 'e'],
      rfl, by decide, .inr rfl, ?_⟩
    repeat' first | exact List.Forall₂.nil | refine List.Forall₂.cons ⟨by decide, ?_⟩ ?_
    all_goals (unfold DigitOf; decide)
  · intro c hc
    obtain rfl := Option.some.inj hc
    unfold DigitOf
    decide

/-- The greatest unsigned long is refused in base 16, and the last digit is not passed. -/
theorem strtoul_not_exact :
    strtoul (List.replicate 8 (chr 'f')) 16 = (0, [chr 'f']) ∧
    ¬ StrtoulExact 16 (2 ^ 32 - 1) [] (List.replicate 8 (chr 'f')) := by
  have hrun : strtoul (List.replicate 8 (chr 'f')) 16 = (0, [chr 'f']) := by decide
  refine ⟨hrun, fun h => ?_⟩
  have hvalue := h.1 (Nat.le_refl _)
  rw [show strtoul (List.replicate 8 (chr 'f')) (16 : Nat) = _ from hrun] at hvalue
  exact absurd (congrArg Prod.snd hvalue) (by decide)

end Ko6.Common
