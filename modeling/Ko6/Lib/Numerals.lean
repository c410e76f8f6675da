import Mathlib

set_option autoImplicit false

/-!
# Lib: numerals

The numeral of a number in a base, the most significant digit first and without
leading zeros.  Programs write it from its end, digit by digit, into the room in
front of a text (`pushDigits`), and read it from its beginning by Horner's rule
(`horner`).  The digits of programs are ASCII characters.
-/

namespace Ko6.Lib

variable {β : Type}

/-- The numeral of `n` in base `b`, with `digit` for the digits. -/
def numeral (digit : Nat → β) (b n : Nat) : List β :=
  if n = 0 then [digit 0] else ((Nat.digits b n).map digit).reverse

/-- The digits of `n` in front of a text, with room for so many.  The room that is left, and
the text; `none` when there is too little. -/
def pushDigits (digit : Nat → β) (b : Nat) : Nat → Nat → List β → Option (Nat × List β)
  | 0, _, _ => none
  | room + 1, n, text =>
    if n / b = 0 then some (room, digit (n % b) :: text)
    else pushDigits digit b room (n / b) (digit (n % b) :: text)

/-- The value of a numeral read from its beginning, after a part of value `n`. -/
def horner (value : β → Nat) (b : Nat) (n : Nat) (l : List β) : Nat :=
  l.foldl (fun n c => n * b + value c) n

section
variable {digit : Nat → β} {b n k room : Nat} {text : List β}

theorem numeral_of_lt (h : n < b) : numeral digit b n = [digit n] := by
  unfold numeral
  by_cases hn : n = 0
  · rw [if_pos hn, hn]
  · rw [if_neg hn, Nat.digits_of_lt b n hn h]
    rfl

/-- The last digit and the ones before it. -/
theorem numeral_of_le (hb : 1 < b) (h : b ≤ n) :
    numeral digit b n = numeral digit b (n / b) ++ [digit (n % b)] := by
  have hn : n ≠ 0 := by omega
  have hq : n / b ≠ 0 := Nat.div_ne_zero_iff.mpr ⟨by omega, h⟩
  rw [numeral, numeral, if_neg hn, if_neg hq, Nat.digits_def' hb (Nat.pos_of_ne_zero hn),
    List.map_cons, List.reverse_cons]

theorem numeral_length_pos : 0 < (numeral digit b n).length := by
  unfold numeral
  split
  · exact Nat.one_pos
  · rename_i hn
    rw [List.length_reverse, List.length_map]
    exact List.length_pos_of_ne_nil (Nat.digits_ne_nil_iff_ne_zero.mpr hn)

/-- A number below `b ^ k` has at most `k` digits. -/
theorem numeral_length_le (hb : 1 < b) (hk : 0 < k) (h : n < b ^ k) :
    (numeral digit b n).length ≤ k := by
  unfold numeral
  split
  · exact hk
  · rw [List.length_reverse, List.length_map]
    exact (Nat.digits_length_le_iff hb n).mpr h

/-- Every element of a numeral is a digit of its base. -/
theorem numeral_mem (hb : 1 < b) {c : β} (hc : c ∈ numeral digit b n) : ∃ d, d < b ∧ digit d = c := by
  unfold numeral at hc
  split at hc
  · exact ⟨0, by omega, (List.mem_singleton.mp hc).symm⟩
  · obtain ⟨d, hd, rfl⟩ := List.mem_map.mp (List.mem_reverse.mp hc)
    exact ⟨d, Nat.digits_lt_base hb hd, rfl⟩

/-- Writing from the end gives the numeral. -/
theorem pushDigits_eq (hb : 1 < b) (hroom : (numeral digit b n).length ≤ room) :
    pushDigits digit b room n text
      = some (room - (numeral digit b n).length, numeral digit b n ++ text) := by
  induction room generalizing n text with
  | zero => exact absurd hroom (Nat.not_le.mpr numeral_length_pos)
  | succ room ih =>
    by_cases h : n < b
    · rw [pushDigits, if_pos (Nat.div_eq_of_lt h), Nat.mod_eq_of_lt h, numeral_of_lt h]
      rfl
    · have hle := Nat.not_lt.mp h
      have hq : n / b ≠ 0 := Nat.div_ne_zero_iff.mpr ⟨by omega, hle⟩
      rw [numeral_of_le hb hle, List.length_append, List.length_singleton] at hroom
      rw [pushDigits, if_neg hq, ih (by omega), numeral_of_le hb hle, List.length_append,
        List.length_singleton, Nat.add_sub_add_right, List.append_assoc]
      rfl

end

section
variable {value : β → Nat} {digit : Nat → β} {b n : Nat} {l l' : List β}

theorem horner_append : horner value b n (l ++ l') = horner value b (horner value b n l) l' :=
  List.foldl_append

/-- Reading a numeral gives the number back. -/
theorem horner_numeral (hb : 1 < b) (hval : ∀ d, d < b → value (digit d) = d) (n : Nat) :
    horner value b 0 (numeral digit b n) = n := by
  induction n using Nat.strong_induction_on with
  | _ n ih =>
    by_cases h : n < b
    · rw [numeral_of_lt h, horner, List.foldl_cons, List.foldl_nil, hval n h]
      omega
    · have hle := Nat.not_lt.mp h
      have hlt : n / b < n := Nat.div_lt_self (by omega) hb
      have hmod := hval (n % b) (Nat.mod_lt n (by omega))
      rw [numeral_of_le hb hle, horner_append, ih _ hlt, horner, List.foldl_cons, List.foldl_nil,
        hmod]
      exact Nat.div_add_mod' n b

/-- A longer numeral has no smaller value. -/
theorem le_horner (hb : 0 < b) : n ≤ horner value b n l := by
  induction l generalizing n with
  | nil => exact Nat.le_refl n
  | cons c l ih =>
    refine Nat.le_trans ?_ (ih (n := n * b + value c))
    exact Nat.le_trans (Nat.le_mul_of_pos_right n hb) (Nat.le_add_right _ _)

end

/-! ## ASCII -/

/-- The code of a character. -/
def chr (c : Char) : BitVec 8 := BitVec.ofNat 8 c.toNat

/-- The digits up to 35, with upper-case letters. -/
def upperDigit (d : Nat) : BitVec 8 :=
  if d < 10 then BitVec.ofNat 8 (d + 48) else BitVec.ofNat 8 (d - 10 + 65)

/-- The digits up to 35, with lower-case letters. -/
def lowerDigit (d : Nat) : BitVec 8 :=
  if d < 10 then BitVec.ofNat 8 (d + 48) else BitVec.ofNat 8 (d - 10 + 97)

/-- The decimal numeral of an integer. -/
def decimal (z : Int) : List (BitVec 8) :=
  if z < 0 then chr '-' :: numeral upperDigit 10 z.natAbs else numeral upperDigit 10 z.natAbs

end Ko6.Lib
