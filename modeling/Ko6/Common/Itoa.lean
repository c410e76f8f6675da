import Ko6.Lib.Numerals

set_option autoImplicit false

/-!
# Common: `itoa` and `atoi`

`itoa` writes from the end of a buffer of 34 bytes; the model keeps the room that
is left in front of the text, and is `none` where a byte would be written before
the buffer.  A string is the list of its bytes before the NUL.

The loop of `itoa` goes on while the rest is positive.  A negative number is made
positive in base 10 only, and the smallest one cannot be: these are the numbers
whose text is not a numeral.
-/

namespace Ko6.Common

open Ko6.Lib

/-! ## Model -/

/-- The loop of `itoa`, with `room` bytes of the buffer in front of the text. -/
def itoaLoop (base : Int) : Nat → Int → List (BitVec 8) → Option (Nat × List (BitVec 8))
  | 0, _, _ => none
  | room + 1, val, text =>
    let digit := val.tmod base
    let text := BitVec.ofInt 8 (if digit < 10 then digit + 48 else digit - 10 + 65) :: text
    let val := val.tdiv base
    if val > 0 then itoaLoop base room val text else some (room, text)

/-- `itoa`: the offset in the buffer of the string returned, and the string; `some none` is
the NULL returned for another base. -/
def itoa (val : BitVec 32) (base : Int) : Option (Option (Nat × List (BitVec 8))) :=
  if base ≠ 2 ∧ base ≠ 10 ∧ base ≠ 16 then some none
  else
    let isNegative := val.toInt < 0 ∧ base = 10
    let val := if isNegative then -val else val
    match itoaLoop base 33 val.toInt [] with
    | none => none
    | some (room, text) =>
      if isNegative then
        match room with
        | 0 => none
        | room + 1 => some (some (room, chr '-' :: text))
      else some (some (room, text))

/-- The last loop of `atoi`. -/
def atoiLoop : List (BitVec 8) → BitVec 32 → BitVec 32
  | [], res => res
  | c :: val, res => atoiLoop val (res * 10 + (c.signExtend 32 - 48))

/-- `atoi`. -/
def atoi (val : List (BitVec 8)) : BitVec 32 :=
  let val := val.dropWhile fun c => c = chr ' ' || c = chr '\t'
  if val.head? = some (chr '-') then -atoiLoop val.tail 0 else atoiLoop val 0

/-! ## The loop of `itoa` -/

/-- On a number that is not negative the loop writes its numeral. -/
theorem itoaLoop_nat (b room n : Nat) (text : List (BitVec 8)) :
    itoaLoop b room n text = pushDigits upperDigit b room n text := by
  induction room generalizing n text with
  | zero => rfl
  | succ room ih =>
    have hmod : (n : Int).tmod b = ((n % b : Nat) : Int) := (Int.ofNat_tmod n b).symm
    have hdiv : (n : Int).tdiv b = ((n / b : Nat) : Int) := (Int.ofNat_tdiv n b).symm
    have hdigit : BitVec.ofInt 8 (if ((n % b : Nat) : Int) < 10 then ((n % b : Nat) : Int) + 48
        else ((n % b : Nat) : Int) - 10 + 65) = upperDigit (n % b) := by
      unfold upperDigit
      by_cases hlt : n % b < 10
      · rw [if_pos (by omega), if_pos hlt, ← BitVec.ofInt_natCast]
        rfl
      · rw [if_neg (by omega), if_neg hlt, ← BitVec.ofInt_natCast]
        congr 1
        omega
    simp only [itoaLoop, hmod, hdiv, hdigit]
    rw [pushDigits]
    by_cases hq : n / b = 0
    · rw [if_neg (by rw [hq]; decide), if_pos hq]
    · rw [if_pos (Int.natCast_pos.mpr (Nat.pos_of_ne_zero hq)), if_neg hq, ih]

/-- On a negative number it stops after one character. -/
theorem itoaLoop_neg {base val : Int} (hbase : 0 < base) (hval : val < 0) (room : Nat)
    (text : List (BitVec 8)) :
    itoaLoop base (room + 1) val text = some (room, BitVec.ofInt 8 (val.tmod base + 48) :: text) := by
  obtain ⟨k, rfl⟩ : ∃ k, val = -k := ⟨-val, by omega⟩
  have hmod : (-k).tmod base ≤ 0 := by
    rw [Int.neg_tmod]
    exact Int.neg_nonpos_of_nonneg (Int.tmod_nonneg base (by omega))
  have hdiv : ¬ (-k).tdiv base > 0 := by
    rw [Int.neg_tdiv]
    exact Int.not_lt.mpr (Int.neg_nonpos_of_nonneg (Int.tdiv_nonneg (by omega) (by omega)))
  have hdigit : (-k).tmod base < 10 := by omega
  simp only [itoaLoop, if_neg hdiv, if_pos hdigit]

/-! ## The results of `itoa` -/

section
variable {val : BitVec 32} {b n : Nat}

theorem itoa_of_not_neg {base : Int} (hbase : base = 2 ∨ base = 10 ∨ base = 16)
    (hneg : ¬ (val.toInt < 0 ∧ base = 10)) :
    itoa val base = (itoaLoop base 33 val.toInt []).map some := by
  have hvalid : ¬ (base ≠ 2 ∧ base ≠ 10 ∧ base ≠ 16) := by omega
  simp only [itoa, if_neg hvalid, if_neg hneg]
  cases itoaLoop base 33 val.toInt [] with
  | none => rfl
  | some r => rfl

theorem itoa_of_neg {room : Nat} {text : List (BitVec 8)} (hneg : val.toInt < 0)
    (hloop : itoaLoop 10 33 (-val).toInt [] = some (room + 1, text)) :
    itoa val 10 = some (some (room, chr '-' :: text)) := by
  simp [itoa, hneg, hloop]

/-- `itoa` of a number that is not negative. -/
theorem itoa_nat (hb : b = 2 ∨ b = 10 ∨ b = 16) (hn : val.toInt = n) :
    ∃ room, itoa val b = some (some (room, numeral upperDigit b n)) ∧
      room + (numeral upperDigit b n).length = 33 := by
  have hb1 : 1 < b := by omega
  have hlt : n < 2 ^ 31 := by
    have h := val.toInt_lt
    omega
  have hpow : (2 : Nat) ^ 31 ≤ b ^ 33 := by
    calc (2 : Nat) ^ 31 ≤ 2 ^ 33 := by decide
      _ ≤ b ^ 33 := Nat.pow_le_pow_left hb1 33
  have hlen : (numeral upperDigit b n).length ≤ 33 :=
    numeral_length_le hb1 (by decide) (Nat.lt_of_lt_of_le hlt hpow)
  refine ⟨33 - (numeral upperDigit b n).length, ?_, by omega⟩
  rw [itoa_of_not_neg (by omega) (by omega), hn, itoaLoop_nat, pushDigits_eq hb1 hlen,
    List.append_nil]
  rfl

/-- `itoa` of a negative number in base 2 or 16: one character. -/
theorem itoa_neg (hb : b = 2 ∨ b = 16) (hn : val.toInt < 0) :
    ∃ c, itoa val b = some (some (32, [c])) := by
  refine ⟨BitVec.ofInt 8 (val.toInt.tmod b + 48), ?_⟩
  rw [itoa_of_not_neg (by omega) (by omega), itoaLoop_neg (by omega) hn]
  rfl

/-- `itoa` of a negative number that has an opposite, in base 10. -/
theorem itoa_ten_neg (hn : val.toInt = -n) (hpos : 0 < n) (hlt : n < 2 ^ 31) :
    ∃ room, itoa val 10 = some (some (room, chr '-' :: numeral upperDigit 10 n)) ∧
      room + (chr '-' :: numeral upperDigit 10 n).length = 33 := by
  have hlen : (numeral upperDigit 10 n).length ≤ 10 :=
    numeral_length_le (by decide) (by decide) (Nat.lt_trans hlt (by decide))
  have hopp : (-val).toInt = (n : Int) := by
    rw [BitVec.toInt_neg, hn, Int.neg_neg, Int.bmod_eq_of_le (by omega) (by omega)]
  obtain ⟨room, hroom⟩ : ∃ room, 33 - (numeral upperDigit 10 n).length = room + 1 :=
    ⟨32 - (numeral upperDigit 10 n).length, by omega⟩
  have hloop := itoaLoop_nat 10 33 n []
  rw [pushDigits_eq (by decide) (by omega), hroom, List.append_nil] at hloop
  refine ⟨room, itoa_of_neg (by omega) (by rw [hopp]; exact hloop), ?_⟩
  rw [List.length_cons]
  omega

/-- `itoa` of the smallest number in base 10: its opposite is itself. -/
theorem itoa_ten_min : itoa (BitVec.intMin 32) 10 = some (some (31, [chr '-', chr '('])) := by
  decide

end

/-! ## `atoi` -/

/-- The value of a decimal digit. -/
def digitValue (c : BitVec 8) : Nat := c.toNat - 48

/-- What `atoi` makes of a decimal digit, which is no character that it skips. -/
theorem upperDigit_ten : ∀ d, d < 10 → (upperDigit d).signExtend 32 - 48 = BitVec.ofNat 32 d ∧
    digitValue (upperDigit d) = d ∧ upperDigit d ≠ chr ' ' ∧ upperDigit d ≠ chr '\t' ∧
    upperDigit d ≠ chr '-' := by
  decide

theorem atoiLoop_digits {l : List (BitVec 8)} (h : ∀ c ∈ l, ∃ d, d < 10 ∧ upperDigit d = c)
    (n : Nat) : atoiLoop l (BitVec.ofNat 32 n) = BitVec.ofNat 32 (horner digitValue 10 n l) := by
  induction l generalizing n with
  | nil => rfl
  | cons c l ih =>
    obtain ⟨d, hd, rfl⟩ := h c List.mem_cons_self
    obtain ⟨hval, hdigit, -⟩ := upperDigit_ten d hd
    have hstep : BitVec.ofNat 32 n * 10 + BitVec.ofNat 32 d = BitVec.ofNat 32 (n * 10 + d) := by
      rw [BitVec.ofNat_add, BitVec.ofNat_mul]
      rfl
    rw [atoiLoop, hval, hstep, ih fun c hc => h c (List.mem_cons_of_mem _ hc), horner, horner,
      List.foldl_cons, hdigit]

theorem atoiLoop_numeral (n : Nat) :
    atoiLoop (numeral upperDigit 10 n) 0 = BitVec.ofNat 32 n := by
  have hloop := atoiLoop_digits (fun c hc => numeral_mem (by decide) hc) 0
    (l := numeral upperDigit 10 n)
  rwa [horner_numeral (by decide) fun d hd => (upperDigit_ten d hd).2.1] at hloop

/-- `atoi` reads a decimal numeral back, modulo the width of an int. -/
theorem atoi_decimal (z : Int) : atoi (decimal z) = BitVec.ofInt 32 z := by
  unfold decimal
  by_cases hz : z < 0
  · have hopp : BitVec.ofInt 32 z = -BitVec.ofNat 32 z.natAbs := by
      rw [← BitVec.ofInt_natCast, ← BitVec.ofInt_neg]
      congr 1
      omega
    have hskip : (chr '-' :: numeral upperDigit 10 z.natAbs).dropWhile
        (fun c => c = chr ' ' || c = chr '\t') = chr '-' :: numeral upperDigit 10 z.natAbs :=
      List.dropWhile_cons_of_neg (by decide)
    rw [if_pos hz, atoi, hskip, List.head?_cons, if_pos rfl, List.tail_cons, atoiLoop_numeral, hopp]
  · have hnat : BitVec.ofInt 32 z = BitVec.ofNat 32 z.natAbs := by
      rw [← BitVec.ofInt_natCast]
      congr 1
      omega
    have hlen : 0 < (numeral upperDigit 10 z.natAbs).length := numeral_length_pos
    obtain ⟨c, l, hl⟩ := List.exists_cons_of_length_pos hlen
    obtain ⟨d, hd, hc⟩ := numeral_mem (by decide) (hl ▸ List.mem_cons_self)
    obtain ⟨-, -, hspace, htab, hminus⟩ := upperDigit_ten d hd
    have hskip : (numeral upperDigit 10 z.natAbs).dropWhile
        (fun c => c = chr ' ' || c = chr '\t') = numeral upperDigit 10 z.natAbs := by
      rw [hl]
      exact List.dropWhile_cons_of_neg (by simp [← hc, hspace, htab])
    have hhead : (numeral upperDigit 10 z.natAbs).head? ≠ some (chr '-') := by
      rw [hl, List.head?_cons, ← hc]
      exact fun h => hminus (Option.some.inj h)
    rw [if_neg hz, atoi, hskip, if_neg hhead, atoiLoop_numeral, hnat]

/-! ## When the text is the numeral -/

/-- `itoa (val, 10)` is the decimal numeral, which `atoi` reads back. -/
def DecimalRoundTrip (val : BitVec 32) : Prop :=
  ∃ room text, itoa val 10 = some (some (room, text)) ∧ text = decimal val.toInt ∧ atoi text = val

/-- `itoa (val, b)` is the numeral of `val` as an unsigned number. -/
def UnsignedNumeral (val : BitVec 32) (b : Nat) : Prop :=
  ∃ room, itoa val b = some (some (room, numeral upperDigit b val.toNat))

section
variable {val : BitVec 32}

theorem decimalRoundTrip_iff : DecimalRoundTrip val ↔ val ≠ BitVec.intMin 32 := by
  constructor
  · rintro ⟨room, text, hitoa, htext, -⟩ rfl
    rw [itoa_ten_min, Option.some.injEq, Option.some.injEq, Prod.mk.injEq] at hitoa
    rw [← hitoa.2] at htext
    -- the text of two characters is shorter than a numeral of ten digits
    have hlen := congrArg List.length htext
    revert hlen
    decide
  · intro hmin
    have hback : ∀ text, text = decimal val.toInt → atoi text = val := by
      rintro _ rfl
      rw [atoi_decimal, BitVec.ofInt_toInt]
    have hlo := val.le_toInt
    have hhi := val.toInt_lt
    by_cases hneg : val.toInt < 0
    · have hne : val.toInt ≠ -(2 ^ 31) := fun h => hmin (BitVec.eq_of_toInt_eq h)
      have hopp : val.toInt = -(val.toInt.natAbs : Int) := by omega
      obtain ⟨room, hitoa, -⟩ := itoa_ten_neg hopp (by omega) (by omega)
      have htext : chr '-' :: numeral upperDigit 10 val.toInt.natAbs = decimal val.toInt := by
        rw [decimal, if_pos hneg]
      exact ⟨room, _, hitoa, htext, hback _ htext⟩
    · have hnat : val.toInt = (val.toInt.natAbs : Int) := by omega
      obtain ⟨room, hitoa, -⟩ := itoa_nat (.inr (.inl rfl)) hnat
      have htext : numeral upperDigit 10 val.toInt.natAbs = decimal val.toInt := by
        rw [decimal, if_neg hneg]
      exact ⟨room, _, hitoa, htext, hback _ htext⟩

theorem unsignedNumeral_iff {b : Nat} (hb : b = 2 ∨ b = 16) :
    UnsignedNumeral val b ↔ 0 ≤ val.toInt := by
  constructor
  · rintro ⟨room, hitoa⟩
    by_contra hneg
    obtain ⟨c, hone⟩ := itoa_neg hb (Int.not_le.mp hneg)
    rw [hone, Option.some.injEq, Option.some.injEq, Prod.mk.injEq] at hitoa
    have hbig : 2 ^ 31 ≤ val.toNat := by
      rw [BitVec.toInt_eq_toNat_cond] at hneg
      split at hneg <;> omega
    -- a numeral of two digits is no single character
    have hlen := congrArg List.length hitoa.2
    rw [numeral_of_le (by omega) (by omega), List.length_append] at hlen
    have hpos : 0 < (numeral upperDigit b (val.toNat / b)).length := numeral_length_pos
    simp only [List.length_singleton] at hlen
    omega
  · intro hpos
    have hnat : val.toInt = val.toNat := by
      rw [BitVec.toInt_eq_toNat_cond] at hpos ⊢
      split at hpos
      · rw [if_pos ‹_›]
      · have := val.isLt
        omega
    obtain ⟨room, hitoa, -⟩ := itoa_nat (b := b) (by omega) hnat
    exact ⟨room, hitoa⟩

/-- The string always lies in the buffer. -/
theorem itoa_inside {b : Nat} (hb : b = 2 ∨ b = 10 ∨ b = 16) :
    ∃ room text, itoa val b = some (some (room, text)) ∧ room + text.length = 33 := by
  have hlo := val.le_toInt
  by_cases hneg : val.toInt < 0
  · by_cases hten : b = 10
    · subst hten
      by_cases hmin : val.toInt = -(2 ^ 31)
      · obtain rfl : val = BitVec.intMin 32 := BitVec.eq_of_toInt_eq hmin
        exact ⟨_, _, itoa_ten_min, rfl⟩
      · have hopp : val.toInt = -(val.toInt.natAbs : Int) := by omega
        obtain ⟨room, hitoa, hlen⟩ := itoa_ten_neg hopp (by omega) (by omega)
        exact ⟨room, _, hitoa, hlen⟩
    · obtain ⟨c, hitoa⟩ := itoa_neg (b := b) (by omega) hneg
      exact ⟨32, [c], hitoa, rfl⟩
  · have hnat : val.toInt = (val.toInt.natAbs : Int) := by omega
    obtain ⟨room, hitoa, hlen⟩ := itoa_nat hb hnat
    exact ⟨room, _, hitoa, hlen⟩

end

/-- The text of `itoa` is the decimal numeral, and `atoi` gives the number back, for every
number but the smallest; in the bases 2 and 16 it is the numeral of the unsigned number
exactly when the number is not negative; and it always lies in the buffer. -/
theorem itoa_numeral_iff (val : BitVec 32) :
    (DecimalRoundTrip val ↔ val ≠ BitVec.intMin 32) ∧
    (UnsignedNumeral val 2 ↔ 0 ≤ val.toInt) ∧ (UnsignedNumeral val 16 ↔ 0 ≤ val.toInt) ∧
    ∀ b : Nat, b = 2 ∨ b = 10 ∨ b = 16 →
      ∃ room text, itoa val b = some (some (room, text)) ∧ room + text.length = 33 :=
  ⟨decimalRoundTrip_iff, unsignedNumeral_iff (.inl rfl), unsignedNumeral_iff (.inr rfl),
    fun _ hb => itoa_inside hb⟩

/-- In base 10 the smallest number becomes `"-("`, and -1 becomes `"/"` in the other bases. -/
theorem itoa_not_numeral :
    ¬ DecimalRoundTrip (BitVec.intMin 32) ∧ ¬ UnsignedNumeral (-1) 2 ∧ ¬ UnsignedNumeral (-1) 16 ∧
    itoa (BitVec.intMin 32) 10 = some (some (31, [chr '-', chr '('])) ∧
    itoa (-1) 2 = some (some (32, [chr '/'])) ∧ itoa (-1) 16 = some (some (32, [chr '/'])) := by
  refine ⟨fun h => decimalRoundTrip_iff.mp h rfl, ?_, ?_, by decide, by decide, by decide⟩
  · exact fun h => absurd ((unsignedNumeral_iff (.inl rfl)).mp h) (by decide)
  · exact fun h => absurd ((unsignedNumeral_iff (.inr rfl)).mp h) (by decide)

end Ko6.Common
