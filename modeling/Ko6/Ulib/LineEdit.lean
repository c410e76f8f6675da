import Ko6.Lib.Mem

set_option autoImplicit false

/-!
# Ulib: the line input of `tty_gets` and `fgets`

`tty_gets` of the kernel and `fgets` of the user library have one loop.  They differ in
how a key is read: the one takes the character behind a carriage return in its place, the
other drops a line feed and takes a carriage return for one.  The key then goes into the
buffer, or takes the last one out of it.

The terminal is the list of the characters that its reads deliver.  A read that waits for
a character that never comes is `none`, and so is a loop that is not over within `fuel`
turns.
-/

namespace Ko6.Ulib

open Ko6.Lib

/-! ## Functions -/

/-- `'\n'`, `'\r'`, and the two keys that delete a character. -/
def lineFeed : BitVec 8 := 10
def carriageReturn : BitVec 8 := 13
def backspace : BitVec 8 := 8
def delete : BitVec 8 := 127

/-- The string `DEL`: cursor to the left, a space, and to the left again. -/
def del : List (BitVec 8) := [27, 91, 68, 32, 27, 91, 68]

/-- The variables of the two functions; `out` is what the terminal has been sent. -/
structure LineVars where
  mem : Mem
  buf : Nat
  count : Int
  res : Int
  c : BitVec 8
  out : List (BitVec 8)

/-- How `tty_gets` reads a key. -/
def ttyGetsKey : List (BitVec 8) → Option (BitVec 8 × List (BitVec 8))
  | [] => none
  | c :: tty =>
    if c = carriageReturn then
      match tty with
      | [] => none
      | c :: tty => some (c, tty)
    else some (c, tty)

/-- How `fgets` reads a key. -/
def fgetsKey : List (BitVec 8) → Option (BitVec 8 × List (BitVec 8))
  | [] => none
  | c :: tty =>
    if c = lineFeed then
      match tty with
      | [] => none
      | c :: tty => some (if c = carriageReturn then lineFeed else c, tty)
    else some (if c = carriageReturn then lineFeed else c, tty)

/-- The rest of the loop's body, with the key `c`. -/
def lineKey (s : LineVars) (c : BitVec 8) : LineVars :=
  if c = backspace ∨ c = delete then
    if s.res ≠ 0 then
      { s with
        c := c
        out := s.out ++ del
        count := s.count + 1
        buf := s.buf - 1
        res := s.res - 1 }
    else { s with c := c }
  else
    { c := c
      out := s.out ++ [c]
      mem := Function.update s.mem s.buf c
      buf := s.buf + 1
      count := s.count - 1
      res := s.res + 1 }

section
variable (key : List (BitVec 8) → Option (BitVec 8 × List (BitVec 8)))

/-- The loop. -/
def lineLoop : Nat → LineVars → List (BitVec 8) → Option (LineVars × List (BitVec 8))
  | 0, _, _ => none
  | fuel + 1, s, tty =>
    if s.count ≠ 0 ∧ s.c ≠ lineFeed then do
      let (c, tty) ← key tty
      lineLoop fuel (lineKey s c) tty
    else some (s, tty)

/-- The two functions: the result, the memory, what the terminal has been sent and the
characters not read. -/
def lineGets (fuel : Nat) (mem : Mem) (buf : Nat) (count : Int) (tty : List (BitVec 8)) :
    Option (Int × Mem × List (BitVec 8) × List (BitVec 8)) := do
  let (s, tty) ← lineLoop key fuel
    { mem := mem, buf := buf, count := count - 1, res := 0, c := 0, out := [] } tty
  some (s.res, Function.update s.mem s.buf 0, s.out, tty)

end

/-- `tty_gets`. -/
def ttyGets := lineGets ttyGetsKey

/-- `fgets`. -/
def fgets := lineGets fgetsKey

/-! ## What a line is -/

/-- The keys in the characters of `tty_gets`: `'\r'` stands for the character behind it. -/
def ttyGetsKeys : List (BitVec 8) → List (BitVec 8)
  | [] => []
  | [c] => if c = carriageReturn then [] else [c]
  | c :: c' :: cs =>
    if c = carriageReturn then c' :: ttyGetsKeys cs else c :: ttyGetsKeys (c' :: cs)

/-- `'\r'` turned into `'\n'`. -/
def endOfLine (c : BitVec 8) : BitVec 8 := if c = carriageReturn then lineFeed else c

/-- The keys in the characters of `fgets`: `'\n'` stands for the character behind it, and
`'\r'` for `'\n'`. -/
def fgetsKeys : List (BitVec 8) → List (BitVec 8)
  | [] => []
  | [c] => if c = lineFeed then [] else [endOfLine c]
  | c :: c' :: cs =>
    if c = lineFeed then endOfLine c' :: fgetsKeys cs else endOfLine c :: fgetsKeys (c' :: cs)

/-- A key at the end of a line. -/
def edit (line : List (BitVec 8)) (c : BitVec 8) : List (BitVec 8) :=
  if c = backspace ∨ c = delete then line.dropLast else line ++ [c]

/-- The line that the keys make. -/
def lineOf (ks : List (BitVec 8)) : List (BitVec 8) := ks.foldl edit []

/-- After these keys the buffer of `count` bytes is full up to the NUL, or the line has
its end. -/
def LineDone (count : Int) (ks : List (BitVec 8)) : Prop :=
  (lineOf ks).length = count - 1 ∨ lineFeed ∈ ks

/-- A call with the buffer of `count` bytes at `buf` that has returned. -/
structure LineRead (keys : List (BitVec 8) → List (BitVec 8)) (mem : Mem) (buf : Nat) (count : Int)
    (tty : List (BitVec 8)) (r : Int × Mem × List (BitVec 8) × List (BitVec 8)) : Prop where
  /-- Only bytes of the buffer are written. -/
  inside : ∀ a, ¬ (buf ≤ a ∧ (a : Int) < buf + count) → r.2.1 a = mem a
  res_nonneg : 0 ≤ r.1
  res_le : r.1 ≤ count - 1
  nul : r.2.1 (buf + r.1.toNat) = 0
  /-- The buffer has the line of the characters that have been read, and the reading stops
  as soon as it is done. -/
  line : ∃ used, tty = used ++ r.2.2.2 ∧ (lineOf (keys used)).length = r.1 ∧
    (∀ i, i < (lineOf (keys used)).length → (lineOf (keys used))[i]? = some (r.2.1 (buf + i))) ∧
    LineDone count (keys used) ∧
    ∀ ks, ks <+: keys used → ks ≠ keys used → ¬ LineDone count ks

/-! ## One key -/

section
variable {mem : Mem} {buf : Nat} {count : Int} {ks : List (BitVec 8)} {s : LineVars} {c : BitVec 8}

theorem lineOf_concat (ks : List (BitVec 8)) (c : BitVec 8) :
    lineOf (ks ++ [c]) = edit (lineOf ks) c := List.foldl_concat ..

/-- The variables after the keys `ks`: the pointer, the room and the result move
together. -/
structure LineInv (mem : Mem) (buf : Nat) (count : Int) (ks : List (BitVec 8)) (s : LineVars) :
    Prop where
  pos : s.buf = buf + (lineOf ks).length
  left : s.count = count - 1 - (lineOf ks).length
  room : (lineOf ks).length ≤ count - 1
  res : s.res = (lineOf ks).length
  text : ∀ i, i < (lineOf ks).length → (lineOf ks)[i]? = some (s.mem (buf + i))
  inside : ∀ a, ¬ (buf ≤ a ∧ (a : Int) < buf + count) → s.mem a = mem a
  last : s.c = lineFeed ↔ lineFeed ∈ ks
  first : ∀ ks', ks' <+: ks → ks' ≠ ks → ¬ LineDone count ks'

/-- The condition of the loop. -/
theorem LineInv.done_iff (h : LineInv mem buf count ks s) :
    LineDone count ks ↔ ¬ (s.count ≠ 0 ∧ s.c ≠ lineFeed) := by
  have hcount := h.left
  rw [LineDone, ← h.last, not_and_or, not_not, not_not]
  constructor
  · rintro (hfull | hlast)
    · exact .inl (by omega)
    · exact .inr hlast
  · rintro (hzero | hlast)
    · exact .inl (by omega)
    · exact .inr hlast

/-- The fields that do not depend on the kind of the key. -/
theorem LineInv.first_concat (h : LineInv mem buf count ks s) (hnot : ¬ LineDone count ks) :
    ∀ ks', ks' <+: ks ++ [c] → ks' ≠ ks ++ [c] → ¬ LineDone count ks' := by
  intro ks' hpre hne
  rcases List.prefix_concat_iff.mp hpre with heq | hpre
  · exact absurd heq hne
  · by_cases heq : ks' = ks
    · rw [heq]
      exact hnot
    · exact h.first ks' hpre heq

/-- While the line is not done a key keeps the invariant. -/
theorem LineInv.key (h : LineInv mem buf count ks s) (hnot : ¬ LineDone count ks) (c : BitVec 8) :
    LineInv mem buf count (ks ++ [c]) (lineKey s c) := by
  have hfeed : lineFeed ∉ ks := fun hmem => hnot (.inr hmem)
  have hfull : (lineOf ks).length ≠ count - 1 := fun heq => hnot (.inl heq)
  have hroom := h.room
  have hlast : c = lineFeed ↔ lineFeed ∈ ks ++ [c] := by
    rw [List.mem_append, List.mem_singleton, eq_comm]
    exact ⟨.inr, fun hor => hor.resolve_left hfeed⟩
  by_cases hc : c = backspace ∨ c = delete
  · have hline : lineOf (ks ++ [c]) = (lineOf ks).dropLast := by
      rw [lineOf_concat, edit, if_pos hc]
    by_cases hres : s.res = 0
    · -- nothing to delete
      have hempty : lineOf ks = [] := by
        have hr := h.res
        rw [hres] at hr
        exact List.length_eq_zero_iff.mp (by omega)
      have hsame : lineOf (ks ++ [c]) = lineOf ks := by
        rw [hline, hempty]
        rfl
      rw [lineKey, if_pos hc, if_neg (not_not.mpr hres)]
      exact ⟨hsame ▸ h.pos, hsame ▸ h.left, hsame ▸ h.room, hsame ▸ h.res, hsame ▸ h.text, h.inside,
        hlast, h.first_concat hnot⟩
    · have hlen : (lineOf (ks ++ [c])).length + 1 = (lineOf ks).length := by
        have hr := h.res
        rw [hline, List.length_dropLast]
        omega
      rw [lineKey, if_pos hc, if_pos hres]
      have hb := h.pos
      have hn := h.left
      have hr := h.res
      refine ⟨?_, ?_, ?_, ?_, fun i hi => ?_, h.inside, hlast, h.first_concat hnot⟩
      · change s.buf - 1 = _
        omega
      · change s.count + 1 = _
        omega
      · omega
      · change s.res - 1 = _
        omega
      · rw [hline, List.length_dropLast] at hi
        rw [hline, List.getElem?_dropLast, if_pos hi]
        exact h.text i (by omega)
  · have hline : lineOf (ks ++ [c]) = lineOf ks ++ [c] := by
      rw [lineOf_concat, edit, if_neg hc]
    have hlen : (lineOf (ks ++ [c])).length = (lineOf ks).length + 1 := by
      rw [hline, List.length_append, List.length_singleton]
    rw [lineKey, if_neg hc]
    have hb := h.pos
    have hn := h.left
    have hr := h.res
    refine ⟨?_, ?_, ?_, ?_, fun i hi => ?_, fun a ha => ?_, hlast, h.first_concat hnot⟩
    · change s.buf + 1 = _
      omega
    · change s.count - 1 = _
      omega
    · omega
    · change s.res + 1 = _
      omega
    · change _ = some (Function.update s.mem s.buf c (buf + i))
      rw [hline, hb]
      rw [hlen] at hi
      by_cases hi' : i = (lineOf ks).length
      · rw [hi', List.getElem?_concat_length, Function.update_self]
      · rw [List.getElem?_append_left (by omega), Function.update_of_ne (by omega)]
        exact h.text i (by omega)
    · change Function.update s.mem s.buf c a = mem a
      rw [Function.update_of_ne (by omega)]
      exact h.inside a ha

end

/-! ## The loop -/

/-- A way to read keys, and what the keys in a list of characters are. -/
structure Reads (key : List (BitVec 8) → Option (BitVec 8 × List (BitVec 8)))
    (keys : List (BitVec 8) → List (BitVec 8)) : Prop where
  nil : keys [] = []
  key : ∀ tty c rest, key tty = some (c, rest) →
    ∃ used, tty = used ++ rest ∧ ∀ more, keys (used ++ more) = c :: keys more

section
variable {key : List (BitVec 8) → Option (BitVec 8 × List (BitVec 8))}
  {keys : List (BitVec 8) → List (BitVec 8)} {mem : Mem} {buf fuel : Nat} {count : Int}
  {ks tty rest : List (BitVec 8)} {s s' : LineVars}

theorem LineInv.loop (hkey : Reads key keys) (h : LineInv mem buf count ks s)
    (hloop : lineLoop key fuel s tty = some (s', rest)) :
    ∃ used, tty = used ++ rest ∧ LineInv mem buf count (ks ++ keys used) s' ∧
      LineDone count (ks ++ keys used) := by
  induction fuel generalizing s tty ks with
  | zero => exact nomatch hloop
  | succ fuel ih =>
    rw [lineLoop] at hloop
    by_cases hmore : s.count ≠ 0 ∧ s.c ≠ lineFeed
    · rw [if_pos hmore] at hloop
      obtain ⟨⟨c, tty₁⟩, hread, hrest⟩ := Option.bind_eq_some_iff.mp hloop
      obtain ⟨used₁, htty, hcons⟩ := hkey.key tty c tty₁ hread
      have hnot : ¬ LineDone count ks := fun hdone => h.done_iff.mp hdone hmore
      obtain ⟨used₂, htty₁, hinv, hdone⟩ := ih (h.key hnot c) hrest
      have hks : ks ++ [c] ++ keys used₂ = ks ++ keys (used₁ ++ used₂) := by
        rw [hcons used₂, List.append_assoc, List.singleton_append]
      refine ⟨used₁ ++ used₂, ?_, hks ▸ hinv, hks ▸ hdone⟩
      rw [htty, htty₁, List.append_assoc]
    · rw [if_neg hmore] at hloop
      obtain ⟨rfl, rfl⟩ := Prod.mk.inj (Option.some.inj hloop)
      refine ⟨[], rfl, ?_, ?_⟩
      · rwa [hkey.nil, List.append_nil]
      · rw [hkey.nil, List.append_nil]
        exact h.done_iff.mpr hmore

/-- A call that returns has read a line. -/
theorem Reads.lineGets (hkey : Reads key keys) (hcount : 1 ≤ count)
    {r : Int × Mem × List (BitVec 8) × List (BitVec 8)}
    (hgets : lineGets key fuel mem buf count tty = some r) :
    LineRead keys mem buf count tty r := by
  obtain ⟨⟨s, rest⟩, hloop, heq⟩ := Option.bind_eq_some_iff.mp hgets
  obtain rfl := Option.some.inj heq
  have hstart : LineInv mem buf count []
      { mem := mem, buf := buf, count := count - 1, res := 0, c := 0, out := [] } := by
    refine ⟨rfl, ?_, ?_, rfl, fun i hi => absurd hi (by simp [lineOf]), fun _ _ => rfl, ?_,
      fun ks' hpre hne => absurd (List.prefix_nil.mp hpre) hne⟩
    · change count - 1 = count - 1 - 0
      omega
    · change (0 : Int) ≤ count - 1
      omega
    · have hzero : (0 : BitVec 8) ≠ lineFeed := by decide
      exact iff_of_false hzero (by simp)
  obtain ⟨used, htty, h, hdone⟩ := hstart.loop hkey hloop
  rw [List.nil_append] at h hdone
  have hb := h.pos
  have hr := h.res
  have hroom := h.room
  have hnul : buf + s.res.toNat = s.buf := by omega
  refine ⟨fun a ha => ?_, ?_, ?_, ?_, used, htty, hr.symm, fun i hi => ?_, hdone, h.first⟩
  · change Function.update s.mem s.buf 0 a = mem a
    rw [Function.update_of_ne (by omega)]
    exact h.inside a ha
  · change 0 ≤ s.res
    omega
  · change s.res ≤ count - 1
    omega
  · change Function.update s.mem s.buf 0 (buf + s.res.toNat) = 0
    rw [hnul, Function.update_self]
  · change _ = some (Function.update s.mem s.buf 0 (buf + i))
    rw [Function.update_of_ne (by omega)]
    exact h.text i hi

end

/-! ## The two functions -/

/-- A key is one character, or `special` and the character behind it. -/
theorem reads_of_special {key : List (BitVec 8) → Option (BitVec 8 × List (BitVec 8))}
    {keys : List (BitVec 8) → List (BitVec 8)} (special : BitVec 8) (f : BitVec 8 → BitVec 8)
    (hnil : key [] = none ∧ keys [] = []) (hlone : key [special] = none)
    (hspecial : ∀ c cs, key (special :: c :: cs) = some (f c, cs) ∧
      keys (special :: c :: cs) = f c :: keys cs)
    (hother : ∀ c cs, c ≠ special → key (c :: cs) = some (f c, cs) ∧
      keys (c :: cs) = f c :: keys cs) : Reads key keys where
  nil := hnil.2
  key := fun tty c rest hkey => by
    cases tty with
    | nil => exact absurd (hnil.1.symm.trans hkey) (by simp)
    | cons c₀ tty =>
      by_cases hc : c₀ = special
      · subst hc
        cases tty with
        | nil => exact absurd (hlone.symm.trans hkey) (by simp)
        | cons c₁ tty =>
          obtain ⟨rfl, rfl⟩ := Prod.mk.inj (Option.some.inj ((hspecial c₁ tty).1.symm.trans hkey))
          exact ⟨[c₀, c₁], rfl, fun more => (hspecial c₁ more).2⟩
      · obtain ⟨rfl, rfl⟩ := Prod.mk.inj (Option.some.inj ((hother c₀ tty hc).1.symm.trans hkey))
        exact ⟨[c₀], rfl, fun more => (hother c₀ more hc).2⟩

theorem reads_ttyGets : Reads ttyGetsKey ttyGetsKeys := by
  refine reads_of_special carriageReturn id ⟨rfl, rfl⟩ rfl
    (fun c cs => ⟨rfl, if_pos rfl⟩) fun c cs hc => ⟨if_neg hc, ?_⟩
  cases cs with
  | nil => exact if_neg hc
  | cons c' cs => exact if_neg hc

theorem reads_fgets : Reads fgetsKey fgetsKeys := by
  refine reads_of_special lineFeed endOfLine ⟨rfl, rfl⟩ rfl
    (fun c cs => ⟨rfl, if_pos rfl⟩) fun c cs hc => ⟨if_neg hc, ?_⟩
  cases cs with
  | nil => exact if_neg hc
  | cons c' cs => exact if_neg hc

/-- `tty_gets` and `fgets` write inside the buffer and return the line of the characters
that they have read. -/
theorem lines_read {mem : Mem} {buf fuel : Nat} {count : Int} {tty : List (BitVec 8)}
    {r : Int × Mem × List (BitVec 8) × List (BitVec 8)} (hcount : 1 ≤ count) :
    (ttyGets fuel mem buf count tty = some r → LineRead ttyGetsKeys mem buf count tty r) ∧
    (fgets fuel mem buf count tty = some r → LineRead fgetsKeys mem buf count tty r) :=
  ⟨reads_ttyGets.lineGets hcount, reads_fgets.lineGets hcount⟩

/-- A character is deleted, one more than there are, and the line ends. -/
theorem lines_read_short : ∃ r₁ r₂,
    ttyGets 9 (fun _ => 0) 64 4 [97, 8, 127, 98, 13, 10, 99] = some r₁ ∧
    LineRead ttyGetsKeys (fun _ => 0) 64 4 [97, 8, 127, 98, 13, 10, 99] r₁ ∧ r₁.1 = 2 ∧
    fgets 9 (fun _ => 0) 64 4 [97, 8, 127, 10, 98, 13, 99] = some r₂ ∧
    LineRead fgetsKeys (fun _ => 0) 64 4 [97, 8, 127, 10, 98, 13, 99] r₂ ∧ r₂.1 = 2 := by
  have hres₁ : (ttyGets 9 (fun _ => 0) 64 4 [97, 8, 127, 98, 13, 10, 99]).map (fun r => r.1) =
      some 2 := by decide
  have hres₂ : (fgets 9 (fun _ => 0) 64 4 [97, 8, 127, 10, 98, 13, 99]).map (fun r => r.1) =
      some 2 := by decide
  obtain ⟨r₁, hgets₁, heq₁⟩ := Option.map_eq_some_iff.mp hres₁
  obtain ⟨r₂, hgets₂, heq₂⟩ := Option.map_eq_some_iff.mp hres₂
  exact ⟨r₁, r₂, hgets₁, (lines_read (by decide)).1 hgets₁, heq₁, hgets₂,
    (lines_read (by decide)).2 hgets₂, heq₂⟩

end Ko6.Ulib
