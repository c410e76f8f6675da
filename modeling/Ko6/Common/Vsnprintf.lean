import Ko6.Common.Cstd
import Ko6.Lib.Numerals
import Ko6.Lib.Sink

set_option autoImplicit false

/-!
# Common: `vsnprintf`

The loops take the format as the list of its bytes before the NUL.  The variadic arguments are words; for
the address of a string `strings` gives the string there.  `*buf++ = c` with the test
of the count behind it is `Sink.put`, and `goto abort` its outcome `abort`.  The outcome
`fault` stands for what is undefined: a read behind the NUL of the format, an
argument that is not there, a byte written before `arg`.  The buffer overlaps neither the
format nor the strings.

Whatever the format is, the function puts the text that its pieces stand for, and only
that of a lone `%` at the end does not stop there.
-/

namespace Ko6.Common

open Ko6.Lib

/-! ## Model -/

/-- `xdigit`. -/
def xdigit : List (BitVec 8) :=
  [chr '0', chr '1', chr '2', chr '3', chr '4', chr '5', chr '6', chr '7', chr '8', chr '9',
    chr 'a', chr 'b', chr 'c', chr 'd', chr 'e', chr 'f']

/-- `"(null)"`. -/
def nullString : List (BitVec 8) := [chr '(', chr 'n', chr 'u', chr 'l', chr 'l', chr ')']

/-- The loop of `%d`, with `room` bytes of `arg` in front of `tmp`. -/
def decLoop : Nat → Int → Int → List (BitVec 8) → Option (List (BitVec 8))
  | 0, _, _, _ => none
  | room + 1, val, i, tmp =>
    let tmp := (BitVec.ofInt 8 (val.tmod 10 + 48) + BitVec.ofInt 8 i) :: tmp
    let val := val.tdiv 10
    if val ≠ 0 then decLoop room val 0 tmp else some tmp

/-- The first loop of `%p` and `%x`: the room that is left, the count of the digits, and the
digits. -/
def hexLoop : Nat → BitVec 32 → Nat → List (BitVec 8) → Option (Nat × Nat × List (BitVec 8))
  | 0, _, _, _ => none
  | room + 1, val, i, tmp =>
    let tmp := xdigit.getD (val &&& 0xF).toNat 0 :: tmp
    let val := val >>> 4
    let i := i + 1
    if val ≠ 0 then hexLoop room val i tmp else some (room, i, tmp)

/-- The second loop of `%p`. -/
def padLoop : Nat → Nat → List (BitVec 8) → Option (List (BitVec 8))
  | 0, i, tmp => if i < 8 then none else some tmp
  | room + 1, i, tmp => if i < 8 then padLoop room (i + 1) (chr '0' :: tmp) else some tmp

section
variable (strings : BitVec 32 → CStr)

/-- `va_arg`: the next argument and the ones behind it. -/
def vaArg : List (BitVec 32) → Flow Sink (BitVec 32 × List (BitVec 32))
  | [] => .fault
  | v :: ap => .next (v, ap)

/-- `case 'd'`. -/
def decDirective (val : BitVec 32) (o : Sink) : Flow Sink Sink :=
  let i : BitVec 32 := if val = 0x80000000 then 1 else 0
  let sign : Flow Sink (BitVec 32 × Sink) :=
    if val.toInt < 0 then (o.put (chr '-')).map fun o => (-val - i, o) else .next (val, o)
  sign.bind fun (val, o) =>
    (Flow.ofOption (decLoop 15 val.toInt i.toInt [])).bind fun tmp => Sink.emit tmp o

/-- `case 'p'` and `case 'x'`. -/
def hexDirective (d : BitVec 8) (val : BitVec 32) (o : Sink) : Flow Sink Sink :=
  (Flow.ofOption (hexLoop 15 val 0 [])).bind fun (room, i, tmp) =>
    (Flow.ofOption (if d = chr 'p' then padLoop room i tmp else some tmp)).bind fun tmp =>
      Sink.emit tmp o

/-- The `switch` on the byte behind a `%`: the arguments that are left, and the output. -/
def directive (d : BitVec 8) (ap : List (BitVec 32)) (o : Sink) :
    Flow Sink (List (BitVec 32) × Sink) :=
  if d = chr '%' then (o.put (chr '%')).map fun o => (ap, o)
  else if d = chr 'c' then
    (vaArg ap).bind fun (v, ap) => (o.put (v.setWidth 8)).map fun o => (ap, o)
  else if d = chr 's' then
    (vaArg ap).bind fun (v, ap) =>
      (Sink.emit (if v = 0 then nullString else (strings v).chars) o).map fun o => (ap, o)
  else if d = chr 'd' then
    (vaArg ap).bind fun (v, ap) => (decDirective v o).map fun o => (ap, o)
  else if d = chr 'p' ∨ d = chr 'x' then
    (vaArg ap).bind fun (v, ap) => (hexDirective d v o).map fun o => (ap, o)
  else (o.put d).map fun o => (ap, o)

/-- The loops over the format.  Behind a lone `%` the NUL is put as a directive would be,
and the format is read on behind it. -/
def vsnprintfLoop : List (BitVec 8) → List (BitVec 32) → Sink → Flow Sink Sink
  | [], _, o => .next o
  | c :: fmt, ap, o =>
    if c ≠ chr '%' then (o.put c).bind fun o => vsnprintfLoop fmt ap o
    else
      match fmt with
      | [] => (o.put 0).bind fun _ => .fault
      | d :: fmt => (directive strings d ap o).bind fun (ap, o) => vsnprintfLoop fmt ap o

/-- `vsnprintf`: the number of characters and the memory. -/
def vsnprintf (m : Mem) (buffer : Nat) (size : BitVec 32) (fmt : CStr) (ap : List (BitVec 32)) :
    Option (BitVec 32 × Mem) :=
  match vsnprintfLoop strings fmt.chars ap { mem := m, pos := buffer, count := size - 1 } with
  | .next o | .abort o =>
    some (BitVec.ofNat 32 o.pos - BitVec.ofNat 32 buffer, Function.update o.mem o.pos 0)
  | .fault => none

/-! ## What a format stands for -/

/-- The text of a directive with the argument `v`. -/
def argText (d : BitVec 8) (v : BitVec 32) : List (BitVec 8) :=
  if d = chr 'c' then [v.setWidth 8]
  else if d = chr 's' then if v = 0 then nullString else (strings v).chars
  else if d = chr 'd' then decimal v.toInt
  else if d = chr 'p' then
    List.replicate (8 - (numeral lowerDigit 16 v.toNat).length) (chr '0')
      ++ numeral lowerDigit 16 v.toNat
  else numeral lowerDigit 16 v.toNat

/-- The directive takes an argument. -/
def takesArg (d : BitVec 8) : Bool :=
  d = chr 'c' || d = chr 's' || d = chr 'd' || d = chr 'p' || d = chr 'x'

/-- A piece of a format: a plain character, or a `%` and the byte behind it. -/
inductive Piece where
  | plain (c : BitVec 8)
  | percent (d : BitVec 8)
  deriving DecidableEq

/-- The pieces of a format, and whether it ends in a lone `%`. -/
def pieces : List (BitVec 8) → List Piece × Bool
  | [] => ([], false)
  | c :: fmt =>
    if c ≠ chr '%' then (.plain c :: (pieces fmt).1, (pieces fmt).2)
    else
      match fmt with
      | [] => ([], true)
      | d :: fmt => (.percent d :: (pieces fmt).1, (pieces fmt).2)

/-- The text of the pieces: each plain character is itself, and so is the byte of a directive
without an argument. -/
def fullText : List Piece → List (BitVec 32) → List (BitVec 8)
  | [], _ => []
  | .plain c :: ps, ap => c :: fullText ps ap
  | .percent d :: ps, ap =>
    if takesArg d then
      match ap with
      | [] => []
      | v :: ap => argText strings d v ++ fullText ps ap
    else d :: fullText ps ap

/-- The number of arguments that the pieces take. -/
def argCount : List Piece → Nat
  | [] => 0
  | .plain _ :: ps => argCount ps
  | .percent d :: ps => if takesArg d then argCount ps + 1 else argCount ps

end

/-! ## Numbers -/

/-- The digits of `%d` are pushed in front of the text. -/
theorem decLoop_nat {room n : Nat} {tmp : List (BitVec 8)} :
    decLoop room n 0 tmp = (pushDigits upperDigit 10 room n tmp).map (·.2) := by
  induction room generalizing n tmp with
  | zero => rfl
  | succ room ih =>
    have hmod : (n : Int).tmod 10 = ((n % 10 : Nat) : Int) := (Int.ofNat_tmod n 10).symm
    have hdiv : (n : Int).tdiv 10 = ((n / 10 : Nat) : Int) := (Int.ofNat_tdiv n 10).symm
    have hdigit : BitVec.ofInt 8 (((n % 10 : Nat) : Int) + 48) + BitVec.ofInt 8 0
        = upperDigit (n % 10) := by
      rw [upperDigit, if_pos (Nat.mod_lt n (by decide)), ← BitVec.ofInt_natCast]
      simp
    simp only [decLoop, hmod, hdiv, hdigit]
    rw [pushDigits]
    by_cases hq : n / 10 = 0
    · rw [if_neg (by rw [hq]; decide), if_pos hq]
      rfl
    · rw [if_pos (Int.natCast_ne_zero.mpr hq), if_neg hq, ih]

theorem numeral_ten_length {n : Nat} (h : n < 2 ^ 32) : (numeral upperDigit 10 n).length ≤ 10 :=
  numeral_length_le (by decide) (by decide) (Nat.lt_trans h (by decide))

theorem decLoop_numeral {n : Nat} (h : n < 2 ^ 32) :
    decLoop 15 n 0 [] = some (numeral upperDigit 10 n) := by
  have hlen := numeral_ten_length h
  rw [decLoop_nat, pushDigits_eq (by decide) (by omega), List.append_nil]
  rfl

/-- The digits of the smallest number: those of the greatest one, the last one patched. -/
theorem decLoop_min : decLoop 15 2147483647 1 [] = some (numeral upperDigit 10 2147483648) := by
  decide

/-- `%d` puts the decimal numeral. -/
theorem decDirective_eq (v : BitVec 32) (o : Sink) :
    decDirective v o = Sink.emit (decimal v.toInt) o := by
  have hlo := v.le_toInt
  have hhi := v.toInt_lt
  unfold decDirective decimal
  by_cases hneg : v.toInt < 0
  · have hdigits : decLoop 15 (-v - if v = 0x80000000 then 1 else 0).toInt
        (if v = 0x80000000 then 1 else 0 : BitVec 32).toInt []
        = some (numeral upperDigit 10 v.toInt.natAbs) := by
      by_cases hmin : v = 0x80000000
      · subst hmin
        exact decLoop_min
      · have hne : v.toInt ≠ -(2 ^ 31) := fun h => hmin (BitVec.eq_of_toInt_eq h)
        have hopp : (-v - 0).toInt = (v.toInt.natAbs : Int) := by
          rw [show -v - 0 = -v from BitVec.sub_zero _, BitVec.toInt_neg,
            Int.bmod_eq_of_le (by omega) (by omega)]
          omega
        rw [if_neg hmin, hopp]
        exact decLoop_numeral (by omega)
    simp only [if_pos hneg]
    rw [Flow.map_bind, Sink.emit]
    simp only [hdigits]
    rfl
  · have hmin : v ≠ 0x80000000 := by
      rintro rfl
      exact hneg (by decide)
    have hnat : v.toInt = (v.toInt.natAbs : Int) := by omega
    have hdigits : decLoop 15 v.toInt 0 [] = some (numeral upperDigit 10 v.toInt.natAbs) := by
      rw [hnat]
      exact decLoop_numeral (by omega)
    simp only [if_neg hneg, if_neg hmin, Flow.next_bind]
    rw [show (0 : BitVec 32).toInt = 0 from rfl, hdigits]
    rfl

theorem xdigit_eq : ∀ d, d < 16 → xdigit.getD d 0 = lowerDigit d := by
  decide

/-- The digits of `%x` and their count. -/
theorem hexLoop_spec {room : Nat} {v : BitVec 32} (i : Nat) (tmp : List (BitVec 8))
    (hroom : (numeral lowerDigit 16 v.toNat).length ≤ room) :
    hexLoop room v i tmp = some (room - (numeral lowerDigit 16 v.toNat).length,
      i + (numeral lowerDigit 16 v.toNat).length, numeral lowerDigit 16 v.toNat ++ tmp) := by
  induction room generalizing v i tmp with
  | zero => exact absurd hroom (Nat.not_le.mpr numeral_length_pos)
  | succ room ih =>
    have hmod : (v &&& 0xF).toNat = v.toNat % 16 := by
      rw [BitVec.toNat_and]
      exact Nat.and_two_pow_sub_one_eq_mod v.toNat 4
    have hdiv : (v >>> 4).toNat = v.toNat / 16 := by
      rw [BitVec.toNat_ushiftRight, Nat.shiftRight_eq_div_pow]
    have hzero : v >>> 4 = 0 ↔ v.toNat / 16 = 0 := by
      rw [← hdiv]
      exact ⟨fun h => congrArg BitVec.toNat h, fun h => BitVec.eq_of_toNat_eq h⟩
    have hdigit := xdigit_eq (v.toNat % 16) (Nat.mod_lt _ (by decide))
    simp only [hexLoop, hmod, hdigit]
    by_cases hlt : v.toNat < 16
    · rw [if_neg (not_not.mpr (hzero.mpr (Nat.div_eq_of_lt hlt))), Nat.mod_eq_of_lt hlt,
        numeral_of_lt hlt]
      rfl
    · have hle := Nat.not_lt.mp hlt
      have hnum : numeral lowerDigit 16 v.toNat =
          numeral lowerDigit 16 (v.toNat / 16) ++ [lowerDigit (v.toNat % 16)] :=
        numeral_of_le (by decide) hle
      rw [hnum, List.length_append, List.length_singleton, ← hdiv] at hroom
      rw [if_pos (mt hzero.mp (by omega)), ih _ _ (by omega), hnum, hdiv, List.length_append,
        List.length_singleton, List.append_assoc]
      congr 2
      · omega
      · congr 1
        omega

theorem padLoop_spec {room i : Nat} (tmp : List (BitVec 8)) (h : 8 - i ≤ room) :
    padLoop room i tmp = some (List.replicate (8 - i) (chr '0') ++ tmp) := by
  induction room generalizing i tmp with
  | zero =>
    have hi : 8 - i = 0 := Nat.le_zero.mp h
    rw [padLoop, if_neg (by omega), hi]
    rfl
  | succ room ih =>
    rw [padLoop]
    by_cases hi : i < 8
    · obtain ⟨k, hk⟩ : ∃ k, 8 - i = k + 1 := ⟨7 - i, by omega⟩
      have hk' : 8 - (i + 1) = k := by omega
      rw [if_pos hi, ih _ (by omega), hk, hk', List.replicate_succ', List.append_assoc]
      rfl
    · have hz : 8 - i = 0 := by omega
      rw [if_neg hi, hz]
      rfl

/-- `%x` and `%p` put the hexadecimal numeral, of eight digits for `%p`. -/
theorem hexDirective_eq (strings : BitVec 32 → CStr) {d : BitVec 8} (hd : d = chr 'p' ∨ d = chr 'x')
    (v : BitVec 32) (o : Sink) :
    hexDirective d v o = Sink.emit (argText strings d v) o := by
  have hlen : (numeral lowerDigit 16 v.toNat).length ≤ 8 :=
    numeral_length_le (by decide) (by decide) v.isLt
  have hloop := hexLoop_spec 0 [] (show (numeral lowerDigit 16 v.toNat).length ≤ 15 by omega)
  have hpad := padLoop_spec (numeral lowerDigit 16 v.toNat ++ [])
    (show 8 - (0 + (numeral lowerDigit 16 v.toNat).length) ≤
      15 - (numeral lowerDigit 16 v.toNat).length by omega)
  unfold hexDirective
  rw [hloop]
  rcases hd with rfl | rfl
  · have htext : argText strings (chr 'p') v
        = List.replicate (8 - (numeral lowerDigit 16 v.toNat).length) (chr '0')
          ++ numeral lowerDigit 16 v.toNat := rfl
    simp only [Flow.ofOption, Flow.next_bind, if_true, hpad, htext]
    rw [Nat.zero_add, List.append_nil]
  · have htext : argText strings (chr 'x') v = numeral lowerDigit 16 v.toNat := rfl
    have hx : ¬ chr 'x' = chr 'p' := by decide
    simp only [Flow.ofOption, Flow.next_bind, if_neg hx, htext, List.append_nil]

/-! ## The format -/

section
variable {strings : BitVec 32 → CStr} {d : BitVec 8} {v : BitVec 32} {ap : List (BitVec 32)}
  {o : Sink}

/-- A directive with an argument puts its text. -/
theorem directive_arg (h : takesArg d = true) :
    directive strings d (v :: ap) o = (Sink.emit (argText strings d v) o).map fun o => (ap, o) := by
  have hcases : d = chr 'c' ∨ d = chr 's' ∨ d = chr 'd' ∨ d = chr 'p' ∨ d = chr 'x' := by
    simpa [takesArg, or_assoc] using h
  rcases hcases with rfl | rfl | rfl | rfl | rfl
  · change (o.put (v.setWidth 8)).map _ = (Sink.emit [v.setWidth 8] o).map _
    rw [Sink.emit_singleton]
  · rfl
  · change (decDirective v o).map _ = (Sink.emit (decimal v.toInt) o).map _
    rw [decDirective_eq]
  · change (hexDirective (chr 'p') v o).map _ = _
    rw [hexDirective_eq strings (.inl rfl)]
  · change (hexDirective (chr 'x') v o).map _ = _
    rw [hexDirective_eq strings (.inr rfl)]

/-- Another one puts its own byte. -/
theorem directive_byte (h : takesArg d = false) :
    directive strings d ap o = (Sink.emit [d] o).map fun o => (ap, o) := by
  have hne : ¬ (d = chr 'c') ∧ ¬ (d = chr 's') ∧ ¬ (d = chr 'd') ∧
      ¬ (d = chr 'p' ∨ d = chr 'x') := by
    simpa [takesArg, and_assoc, not_or] using h
  obtain ⟨hc, hs, hd, hx⟩ := hne
  rw [Sink.emit_singleton]
  unfold directive
  by_cases hp : d = chr '%'
  · rw [if_pos hp, hp]
  · rw [if_neg hp, if_neg hc, if_neg hs, if_neg hd, if_neg hx]

end

/-- What is done at the end of the format. -/
def atEnd (lone : Bool) (o : Sink) : Flow Sink Sink :=
  if lone then (o.put 0).bind fun _ => .fault else .next o

/-- The loops put the text of the format. -/
theorem vsnprintfLoop_eq (strings : BitVec 32 → CStr) (fmt : List (BitVec 8)) :
    ∀ (ap : List (BitVec 32)) (o : Sink), argCount (pieces fmt).1 ≤ ap.length →
      vsnprintfLoop strings fmt ap o
        = (Sink.emit (fullText strings (pieces fmt).1 ap) o).bind (atEnd (pieces fmt).2) := by
  induction fmt using pieces.induct with
  | case1 =>
    intro ap o _
    rfl
  | case2 c fmt hc ih =>
    intro ap o hap
    have hpieces : pieces (c :: fmt) = (.plain c :: (pieces fmt).1, (pieces fmt).2) := by
      cases fmt with
      | nil => exact if_pos hc
      | cons d fmt => exact if_pos hc
    have hloop : vsnprintfLoop strings (c :: fmt) ap o
        = (o.put c).bind fun o => vsnprintfLoop strings fmt ap o := by
      cases fmt with
      | nil => exact if_pos hc
      | cons d fmt => exact if_pos hc
    rw [hpieces] at hap ⊢
    rw [hloop, fullText, Sink.emit, Flow.bind_assoc]
    congr 1
    funext o
    exact ih ap o hap
  | case3 c hc =>
    intro ap o _
    rw [vsnprintfLoop, if_neg hc, pieces, if_neg hc]
    rfl
  | case4 c hc d fmt ih =>
    intro ap o hap
    have hpieces : pieces (c :: d :: fmt) = (.percent d :: (pieces fmt).1, (pieces fmt).2) :=
      if_neg hc
    have hloop : vsnprintfLoop strings (c :: d :: fmt) ap o
        = (directive strings d ap o).bind fun (ap, o) => vsnprintfLoop strings fmt ap o :=
      if_neg hc
    rw [hpieces] at hap ⊢
    rw [hloop]
    simp only [argCount] at hap
    simp only [fullText]
    cases hd : takesArg d with
    | true =>
      rw [hd, if_pos rfl] at hap
      obtain ⟨v, ap, rfl⟩ := List.exists_cons_of_length_pos (Nat.lt_of_lt_of_le (Nat.succ_pos _) hap)
      rw [if_pos rfl, directive_arg hd, Flow.map_bind, Sink.emit_append, Flow.bind_assoc]
      congr 1
      funext o
      exact ih ap o (Nat.le_of_succ_le_succ hap)
    | false =>
      rw [hd, if_neg (by decide)] at hap
      have htext : Sink.emit (d :: fullText strings (pieces fmt).1 ap) o
          = (Sink.emit [d] o).bind (Sink.emit (fullText strings (pieces fmt).1 ap)) :=
        Sink.emit_append (l := [d])
      rw [if_neg (by decide), directive_byte hd, Flow.map_bind, htext, Flow.bind_assoc]
      congr 1
      funext o
      exact ih ap o hap

/-! ## What is written -/

section
variable {strings : BitVec 32 → CStr} {m : Mem} {buffer : Nat} {size : BitVec 32} {fmt : CStr}
  {ap : List (BitVec 32)}

/-- The text of a format. -/
def formatText (strings : BitVec 32 → CStr) (fmt : CStr) (ap : List (BitVec 32)) :
    List (BitVec 8) :=
  fullText strings (pieces fmt.chars).1 ap

/-- The arguments supply the directives. -/
def Supplies (fmt : CStr) (ap : List (BitVec 32)) : Prop :=
  argCount (pieces fmt.chars).1 ≤ ap.length

/-- The format ends in a lone `%`. -/
def EndsInPercent (fmt : CStr) : Prop := (pieces fmt.chars).2 = true

instance : Decidable (Supplies fmt ap) := inferInstanceAs (Decidable (_ ≤ _))

instance : Decidable (EndsInPercent fmt) := inferInstanceAs (Decidable (_ = _))

/-- The number of characters that the count lets through. -/
def countRoom (size : BitVec 32) : Nat := if size.toNat = 1 then 2 ^ 32 else size.toNat - 1

theorem sink_room (hsize : 1 ≤ size.toNat) :
    Sink.room { mem := m, pos := buffer, count := size - 1 } = countRoom size := by
  have hcount : (size - 1).toNat = size.toNat - 1 := BitVec.toNat_sub_of_le hsize
  have hzero : size - 1 = 0 ↔ size.toNat = 1 := by
    constructor
    · intro h
      have hnat := congrArg BitVec.toNat h
      rw [hcount] at hnat
      change size.toNat - 1 = 0 at hnat
      omega
    · intro h
      exact BitVec.eq_of_toNat_eq (by rw [hcount, h]; rfl)
  simp only [Sink.room, countRoom, hzero, hcount]

/-- The end of the function, with `l` in the buffer. -/
theorem finish_eq (m : Mem) (buffer : Nat) (l : List (BitVec 8)) :
    (BitVec.ofNat 32 (buffer + l.length) - BitVec.ofNat 32 buffer,
      Function.update (writeBytes m buffer l) (buffer + l.length) 0)
      = (BitVec.ofNat 32 l.length, writeBytes m buffer (l ++ [0])) := by
  have hres : BitVec.ofNat 32 (buffer + l.length) - BitVec.ofNat 32 buffer
      = BitVec.ofNat 32 l.length := by
    rw [BitVec.ofNat_add, BitVec.add_comm, BitVec.add_sub_cancel]
  rw [hres, writeBytes_append]
  rfl

/-- A format that does not end in a lone `%`: as much of its text as the count lets through. -/
theorem vsnprintf_of_not_lone (strings : BitVec 32 → CStr) (m : Mem) (buffer : Nat)
    (hsize : 1 ≤ size.toNat) (hap : Supplies fmt ap)
    (hlone : ¬ EndsInPercent fmt) :
    vsnprintf strings m buffer size fmt ap
      = some (BitVec.ofNat 32 (min (countRoom size) (formatText strings fmt ap).length),
        writeBytes m buffer ((formatText strings fmt ap).take (countRoom size) ++ [0])) := by
  have hend : (pieces fmt.chars).2 = false := by simpa [EndsInPercent] using hlone
  have hloop := vsnprintfLoop_eq strings fmt.chars ap
    { mem := m, pos := buffer, count := size - 1 } hap
  rw [← formatText, Sink.emit_room, sink_room hsize, hend] at hloop
  rw [vsnprintf, hloop]
  by_cases hlt : (formatText strings fmt ap).length < countRoom size
  · rw [if_pos hlt, Nat.min_eq_right (Nat.le_of_lt hlt), List.take_of_length_le (Nat.le_of_lt hlt)]
    exact congrArg some (finish_eq m buffer _)
  · have hlen : ((formatText strings fmt ap).take (countRoom size)).length = countRoom size :=
      List.length_take_of_le (Nat.not_lt.mp hlt)
    have hfinish := finish_eq m buffer ((formatText strings fmt ap).take (countRoom size))
    rw [hlen] at hfinish
    rw [if_neg hlt, Nat.min_eq_left (Nat.not_lt.mp hlt)]
    exact congrArg some hfinish

/-- Behind a lone `%` the NUL is put, and the format is read on unless the count stops
there. -/
theorem vsnprintf_of_lone (strings : BitVec 32 → CStr) (m : Mem) (buffer : Nat)
    (hsize : 1 ≤ size.toNat) (hap : Supplies fmt ap)
    (hlone : EndsInPercent fmt) :
    vsnprintf strings m buffer size fmt ap =
      if (formatText strings fmt ap).length + 1 < countRoom size then none
      else some (BitVec.ofNat 32 (countRoom size),
        writeBytes m buffer ((formatText strings fmt ap ++ [0]).take (countRoom size) ++ [0])) := by
  have hloop := vsnprintfLoop_eq strings fmt.chars ap
    { mem := m, pos := buffer, count := size - 1 } hap
  have hput : (Sink.emit (formatText strings fmt ap)
        { mem := m, pos := buffer, count := size - 1 }).bind (atEnd true)
      = (Sink.emit (formatText strings fmt ap ++ [0])
        { mem := m, pos := buffer, count := size - 1 }).bind fun _ => .fault := by
    rw [Sink.emit_append, Flow.bind_assoc]
    congr 1
    funext o
    rw [Sink.emit_singleton]
    rfl
  rw [← formatText, show (pieces fmt.chars).2 = true from hlone, hput, Sink.emit_room,
    sink_room hsize, List.length_append, List.length_singleton] at hloop
  rw [vsnprintf, hloop]
  by_cases hlt : (formatText strings fmt ap).length + 1 < countRoom size
  · rw [if_pos hlt, if_pos hlt]
    rfl
  · have hlen : ((formatText strings fmt ap ++ [0]).take (countRoom size)).length
        = countRoom size := by
      refine List.length_take_of_le ?_
      rw [List.length_append, List.length_singleton]
      exact Nat.not_lt.mp hlt
    have hfinish := finish_eq m buffer ((formatText strings fmt ap ++ [0]).take (countRoom size))
    rw [hlen] at hfinish
    rw [if_neg hlt, if_neg hlt]
    exact congrArg some hfinish

end

/-! ## Formatted output -/

/-- Plain characters and the directives of the documentation, and no lone `%` at the end. -/
structure WellFormed (fmt : CStr) : Prop where
  directives : ∀ d, .percent d ∈ (pieces fmt.chars).1 →
    d ∈ [chr '%', chr 'c', chr 's', chr 'd', chr 'x', chr 'p']
  notLone : ¬ EndsInPercent fmt

/-- `vsnprintf` writes the first characters of the text of a well-formed format, as many as
fit with the NUL behind them, and returns their number. -/
theorem vsnprintf_correct (strings : BitVec 32 → CStr) (m : Mem) (buffer : Nat) {size : BitVec 32}
    {fmt : CStr} {ap : List (BitVec 32)} (hlo : 2 ≤ size.toNat) (hhi : size.toNat ≤ 2 ^ 31)
    (hfmt : WellFormed fmt) (hap : Supplies fmt ap) :
    ∃ res, vsnprintf strings m buffer size fmt ap
        = some (res, writeBytes m buffer
          ((formatText strings fmt ap).take (size.toNat - 1) ++ [0])) ∧
      res.toInt = (min (size.toNat - 1) (formatText strings fmt ap).length : Nat) := by
  have hroom : countRoom size = size.toNat - 1 := if_neg (by omega)
  have hrun := vsnprintf_of_not_lone strings m buffer (show 1 ≤ size.toNat by omega) hap
    hfmt.notLone
  rw [hroom] at hrun
  refine ⟨_, hrun, ?_⟩
  rw [BitVec.toInt_eq_toNat_of_lt (by rw [BitVec.toNat_ofNat]; omega), BitVec.toNat_ofNat]
  omega

/-- The smallest number and a `!` in a buffer of eight bytes. -/
theorem vsnprintf_correct_min :
    ∃ res, vsnprintf (fun _ => ⟨[], by simp⟩) (fun _ => 1) 100 8
        ⟨[chr '%', chr 'd', chr '!'], by decide⟩ [0x80000000]
        = some (res, writeBytes (fun _ => 1) 100
          ((formatText (fun _ => ⟨[], by simp⟩) ⟨[chr '%', chr 'd', chr '!'], by decide⟩
            [0x80000000]).take 7 ++ [0])) ∧
      res.toInt = (min 7 (formatText (fun _ => ⟨[], by simp⟩)
        ⟨[chr '%', chr 'd', chr '!'], by decide⟩ [0x80000000]).length : Nat) := by
  refine vsnprintf_correct _ _ _ (by decide) (by decide) ⟨?_, by decide⟩ (by decide)
  intro d hd
  have hpieces : (pieces [chr '%', chr 'd', chr '!']).1 = [.percent (chr 'd'), .plain (chr '!')] :=
    by decide
  rw [hpieces] at hd
  obtain rfl : d = chr 'd' := by simpa using hd
  decide

/-! ## Bounds -/

/-- Whatever was in memory, the call writes a text and a NUL, at most `size` bytes, from the
beginning of the buffer on, and does not read behind the format. -/
def InBounds (strings : BitVec 32 → CStr) (size : BitVec 32) (fmt : CStr) (ap : List (BitVec 32)) :
    Prop :=
  ∀ (m : Mem) (buffer : Nat), ∃ res l, l.length < size.toNat ∧
    vsnprintf strings m buffer size fmt ap = some (res, writeBytes m buffer (l ++ [0]))

/-- Where the NUL comes to stand shows how much was written. -/
theorem length_le_of_writeBytes_eq {l l' : List (BitVec 8)}
    (h : writeBytes (fun _ => 1) 0 (l ++ [0]) = writeBytes (fun _ => 1) 0 (l' ++ [0])) :
    l.length ≤ l'.length := by
  by_contra hlt
  have hnul : writeBytes (fun _ => 1) 0 (l ++ [0]) (0 + l.length) = 0 := by
    rw [writeBytes_of_inside l.length (by simp)]
    simp
  rw [h, writeBytes_of_outside (.inr (by simp; omega))] at hnul
  exact absurd hnul (by decide)

/-- `vsnprintf` stays in bounds, except that a buffer of one byte has no room for a
character, and that behind a lone `%` the format is read on when the buffer is not full. -/
theorem vsnprintf_inBounds_iff (strings : BitVec 32 → CStr) {size : BitVec 32} {fmt : CStr}
    {ap : List (BitVec 32)} (hsize : 1 ≤ size.toNat) (hap : Supplies fmt ap) :
    InBounds strings size fmt ap ↔
      (2 ≤ size.toNat ∨ formatText strings fmt ap = [] ∧ ¬ EndsInPercent fmt) ∧
      (EndsInPercent fmt → size.toNat ≤ (formatText strings fmt ap).length + 2) := by
  by_cases hlone : EndsInPercent fmt
  · have hrun : ∀ m buffer, _ := fun m buffer =>
      vsnprintf_of_lone strings m buffer hsize hap hlone
    constructor
    · intro hin
      obtain ⟨res, l, hl, heq⟩ := hin (fun _ => 1) 0
      rw [hrun] at heq
      by_cases hlt : (formatText strings fmt ap).length + 1 < countRoom size
      · rw [if_pos hlt] at heq
        exact absurd heq (by simp)
      · rw [if_neg hlt, Option.some.injEq, Prod.mk.injEq] at heq
        have hlen := length_le_of_writeBytes_eq heq.2
        rw [List.length_take_of_le (by simp; omega)] at hlen
        unfold countRoom at hlen hlt
        split at hlen
        · omega
        · rename_i hne
          rw [if_neg hne] at hlt
          exact ⟨.inl (by omega), fun _ => by omega⟩
    · rintro ⟨hone, hfull⟩
      have htwo : 2 ≤ size.toNat := hone.resolve_right fun h => h.2 hlone
      have hroom : countRoom size = size.toNat - 1 := if_neg (by omega)
      intro m buffer
      have hle := hfull hlone
      refine ⟨BitVec.ofNat 32 (countRoom size),
        (formatText strings fmt ap ++ [0]).take (size.toNat - 1), ?_, ?_⟩
      · rw [List.length_take]
        omega
      · rw [hrun, hroom, if_neg (by omega)]
  · have hrun : ∀ m buffer, _ := fun m buffer =>
      vsnprintf_of_not_lone strings m buffer hsize hap hlone
    constructor
    · intro hin
      refine ⟨?_, fun h => absurd h hlone⟩
      by_contra hnot
      obtain ⟨htwo, htext⟩ := not_or.mp hnot
      have hroom : countRoom size = 2 ^ 32 := if_pos (by omega)
      obtain ⟨res, l, hl, heq⟩ := hin (fun _ => 1) 0
      rw [hrun, Option.some.injEq, Prod.mk.injEq] at heq
      have hlen := length_le_of_writeBytes_eq heq.2
      have hpos : 0 < (formatText strings fmt ap).length :=
        List.length_pos_of_ne_nil fun h => htext ⟨h, hlone⟩
      rw [List.length_take, hroom] at hlen
      omega
    · rintro ⟨hone, -⟩
      intro m buffer
      refine ⟨_, _, ?_, hrun m buffer⟩
      rw [List.length_take]
      rcases hone with htwo | ⟨htext, -⟩
      · have hroom : countRoom size = size.toNat - 1 := if_neg (by omega)
        omega
      · rw [htext]
        exact Nat.lt_of_le_of_lt (Nat.min_le_right _ _) hsize

/-- `"%d"` at the end of a buffer of two bytes. -/
theorem vsnprintf_inBounds_iff_two :
    InBounds (fun _ => ⟨[], by simp⟩) 2 ⟨[chr '%', chr 'd'], by decide⟩ [7] :=
  (vsnprintf_inBounds_iff _ (by decide) (by decide)).mpr
    ⟨.inl (by decide), fun h => absurd h (by decide)⟩

/-- `"a"` does not fit in one byte, and behind `"%"` the format is read on. -/
theorem vsnprintf_not_inBounds :
    ¬ InBounds (fun _ => ⟨[], by simp⟩) 1 ⟨[chr 'a'], by decide⟩ [] ∧
    vsnprintf (fun _ => ⟨[], by simp⟩) (fun _ => 1) 100 4 ⟨[chr '%'], by decide⟩ [] = none := by
  refine ⟨fun h => ?_, rfl⟩
  have hcond := (vsnprintf_inBounds_iff (fun _ => ⟨[], by simp⟩) (by decide) (by decide)).mp h
  exact absurd hcond.1 (by decide)

end Ko6.Common
