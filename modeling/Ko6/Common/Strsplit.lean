import Ko6.Common.Cstd
import Ko6.Lib.Tokens

set_option autoImplicit false

/-!
# Common: `strsplit`

The splitter writes a NUL after each token and returns the addresses of the
tokens, so it is modelled on a memory that can be read below a limit.  After a
token it skips the delimiters with `strchr`, which finds the NUL of `delim` too:
the end of the string does not stop that loop.  `strsplit_spec` says what is
returned when the string does not end there, and `strsplit_fault` that the read
goes past the end of a zero memory when it does.
-/

namespace Ko6.Common

open Ko6.Lib

/-! ## Model -/

/-- `strchr`: the index of the first `c`, the NUL at the end included. -/
def strchr : List (BitVec 8) → BitVec 8 → Option Nat
  | [], c => if c = 0 then some 0 else none
  | b :: s, c => if b = c then some 0 else (strchr s c).map (· + 1)

/-- `strncpy`: the string, then zeros. -/
def strncpy (m : Mem) (dest : Nat) (src : CStr) (n : Nat) : Mem := fun b =>
  if dest ≤ b ∧ b < dest + n then src.byte (b - dest) else m b

/-- `while (test (*str)) str++` over the `n` bytes that can be read from `str` on;
`none` past them. -/
def skipWhile (test : BitVec 8 → Bool) (m : Mem) : Nat → Nat → Option Nat
  | 0, _ => none
  | n + 1, str => if test (m str) then skipWhile test m n (str + 1) else some str

section
variable (lim : Nat) (delim : CStr)

/-- The main loop of `strsplit` with room for `n` more tokens. -/
def strsplitLoop : Nat → Nat → Mem → Option (List Nat × Mem)
  | 0, str, m => if lim ≤ str then none else some ([], m)
  | n + 1, str, m =>
    if lim ≤ str then none
    else if m str = 0 then some ([], m)
    else do
      let last ← skipWhile (fun c => c ≠ 0 && (strchr delim.chars c).isNone) m (lim - str) str
      if m last = 0 then some ([str], m)
      else do
        let m := Function.update m last 0
        let next ← skipWhile (fun c => (strchr delim.chars c).isSome) m (lim - (last + 1)) (last + 1)
        let (tokens, m) ← strsplitLoop n next m
        some (str :: tokens, m)

/-- `strsplit`: the addresses of the tokens and the memory. -/
def strsplit (m : Mem) (str maxtoken : Nat) : Option (List Nat × Mem) := do
  let str ← skipWhile (fun c => c ≠ 0 && (strchr delim.chars c).isSome) m (lim - str) str
  strsplitLoop lim delim maxtoken str m

end

/-- The string at an address, from at most `n` bytes that can be read. -/
def readChars (m : Mem) : Nat → Nat → Option (List (BitVec 8))
  | 0, _ => none
  | n + 1, a => if m a = 0 then some [] else (readChars m n (a + 1)).map (m a :: ·)

/-! ## Bytes in memory -/

/-- The bytes of the list stand in memory from `a` on. -/
def BytesAt (m : Mem) : Nat → List (BitVec 8) → Prop
  | _, [] => True
  | a, c :: l => m a = c ∧ BytesAt m (a + 1) l

section
variable {m m' : Mem} {a lim n : Nat} {l w : List (BitVec 8)} {test : BitVec 8 → Bool}
  {delim : CStr}

theorem bytesAt_append : BytesAt m a (w ++ l) ↔ BytesAt m a w ∧ BytesAt m (a + w.length) l := by
  induction w generalizing a with
  | nil => simp [BytesAt]
  | cons c w ih =>
    have hlen : a + (c :: w).length = a + 1 + w.length := by
      rw [List.length_cons]
      omega
    rw [List.cons_append, BytesAt, BytesAt, ih, hlen, and_assoc]

theorem BytesAt.congr (h : BytesAt m a l) (hm : ∀ b, a ≤ b → b < a + l.length → m' b = m b) :
    BytesAt m' a l := by
  induction l generalizing a with
  | nil => trivial
  | cons c l ih =>
    obtain ⟨hc, hl⟩ := h
    rw [List.length_cons] at hm
    exact ⟨(hm a (Nat.le_refl a) (by omega)).trans hc, ih hl fun b hlo hhi => hm b (by omega) (by omega)⟩

theorem BytesAt.mem {b : Nat} (h : BytesAt m a l) (hlo : a ≤ b) (hhi : b < a + l.length) :
    m b ∈ l := by
  induction l generalizing a with
  | nil =>
    rw [List.length_nil] at hhi
    omega
  | cons c l ih =>
    obtain ⟨hc, hl⟩ := h
    rw [List.length_cons] at hhi
    rcases Nat.eq_or_lt_of_le hlo with rfl | hlt
    · rw [hc]
      exact List.mem_cons_self
    · exact List.mem_cons_of_mem c (ih hl hlt (by omega))

/-- A loop over a run of bytes that pass its test stops behind it. -/
theorem skipWhile_run {c : BitVec 8} {rest : List (BitVec 8)} (hw : ∀ c ∈ w, test c = true)
    (hc : test c = false) (h : BytesAt m a (w ++ c :: rest)) (hn : w.length < n) :
    skipWhile test m n a = some (a + w.length) := by
  induction w generalizing a n with
  | nil =>
    cases n with
    | zero => exact absurd hn (Nat.not_lt_zero _)
    | succ n => rw [skipWhile, h.1, hc, if_neg (by decide), List.length_nil, Nat.add_zero]
  | cons d w ih =>
    cases n with
    | zero => exact absurd hn (Nat.not_lt_zero _)
    | succ n =>
      rw [List.length_cons] at hn
      rw [skipWhile, h.1, if_pos (hw d List.mem_cons_self),
        ih (fun c hc => hw c (List.mem_cons_of_mem d hc)) h.2 (by omega), List.length_cons]
      congr 1
      omega

/-- A loop whose test holds for every byte that can be read does not stop. -/
theorem skipWhile_none (h : ∀ b, a ≤ b → b < a + n → test (m b) = true) :
    skipWhile test m n a = none := by
  induction n generalizing a with
  | zero => rfl
  | succ n ih =>
    rw [skipWhile, if_pos (h a (Nat.le_refl a) (by omega))]
    exact ih fun b hlo hhi => h b (by omega) (by omega)

theorem readChars_eq (hl : ∀ c ∈ l, c ≠ 0) (h : BytesAt m a (l ++ [0])) (hn : l.length < n) :
    readChars m n a = some l := by
  induction l generalizing a n with
  | nil =>
    cases n with
    | zero => exact absurd hn (Nat.not_lt_zero _)
    | succ n => rw [readChars, if_pos h.1]
  | cons c l ih =>
    cases n with
    | zero => exact absurd hn (Nat.not_lt_zero _)
    | succ n =>
      rw [List.length_cons] at hn
      rw [readChars, h.1, if_neg (hl c List.mem_cons_self),
        ih (fun c hc => hl c (List.mem_cons_of_mem _ hc)) h.2 (by omega)]
      rfl

/-! ## What is returned -/

/-- A delimiter, for the loops. -/
def isSep (delim : CStr) (c : BitVec 8) : Bool := (strchr delim.chars c).isSome

theorem isSep_zero (delim : CStr) : isSep delim 0 = true := by
  unfold isSep
  induction delim.chars with
  | nil => rfl
  | cons b s ih =>
    rw [strchr]
    by_cases hb : b = 0
    · rw [if_pos hb]
      rfl
    · rw [if_neg hb, Option.isSome_map]
      exact ih

/-- The splitter reads on behind the string: it ends with a delimiter, after a token
that is not beyond the limit. -/
def RunsOff (delim : CStr) (l : List (BitVec 8)) (n : Nat) : Prop :=
  (∃ c, l.getLast? = some c ∧ isSep delim c = true) ∧
    0 < (tokens (isSep delim) l).length ∧ (tokens (isSep delim) l).length ≤ n

/-- The end of a string decides, when a token stands before its rest. -/
theorem runsOff_append_iff {v r : List (BitVec 8)} (heq : l = v ++ r) (hr : r ≠ [])
    (hpos : 0 < (tokens (isSep delim) r).length)
    (htoks : (tokens (isSep delim) l).length = (tokens (isSep delim) r).length + 1) :
    RunsOff delim l (n + 1) ↔ RunsOff delim r n := by
  have hlast : l.getLast? = r.getLast? := by
    rw [heq, List.getLast?_append, List.getLast?_eq_some_getLast hr]
    rfl
  unfold RunsOff
  rw [hlast, htoks]
  refine and_congr_right fun _ => ?_
  omega

theorem runsOff_of_seps {d : BitVec 8} {s : List (BitVec 8)}
    (hs : ∀ c ∈ d :: s, isSep delim c = true)
    (htoks : tokens (isSep delim) (w ++ d :: (s ++ [])) = w :: tokens (isSep delim) []) :
    RunsOff delim (w ++ d :: (s ++ [])) (n + 1) := by
  refine ⟨⟨(d :: s).getLast (List.cons_ne_nil d s), ?_, hs _ (List.getLast_mem _)⟩, ?_, ?_⟩
  · rw [List.append_nil, List.getLast?_append, List.getLast?_eq_some_getLast (List.cons_ne_nil d s)]
    rfl
  · rw [htoks]
    exact Nat.succ_pos _
  · rw [htoks, tokens_nil]
    exact Nat.succ_le_succ (Nat.zero_le n)

/-- A string is a token, then nothing or delimiters, then the rest. -/
theorem split_token {c : BitVec 8} (hc : isSep delim c = false) (l : List (BitVec 8)) :
    ∃ w, w ≠ [] ∧ (∀ c ∈ w, isSep delim c = false) ∧ (c :: l = w ∨
      ∃ d s rest, c :: l = w ++ d :: (s ++ rest) ∧ (∀ c ∈ d :: s, isSep delim c = true) ∧
        (rest = [] ∨ ∃ c l', rest = c :: l' ∧ isSep delim c = false)) := by
  obtain ⟨w, rest, heq, hw, hrest⟩ := exists_run (fun c => !isSep delim c) (c :: l)
  have hw' : ∀ c ∈ w, isSep delim c = false := fun c hc => by simpa using hw c hc
  refine ⟨w, ?_, hw', ?_⟩
  · rintro rfl
    rcases hrest with rfl | ⟨d, l', rfl, hd⟩
    · exact absurd heq (by simp)
    · rw [List.nil_append, List.cons.injEq] at heq
      rw [← heq.1, hc] at hd
      exact absurd hd (by decide)
  · rcases hrest with rfl | ⟨d, l', rfl, hd⟩
    · rw [List.append_nil] at heq
      exact .inl heq
    · obtain ⟨s, rest, rfl, hs, hrest⟩ := exists_run (isSep delim) l'
      refine .inr ⟨d, s, rest, heq, fun c hc => ?_, hrest⟩
      rcases List.mem_cons.mp hc with rfl | hc
      · simpa using hd
      · exact hs c hc

theorem tokens_pos {c : BitVec 8} (hc : isSep delim c = false) (l : List (BitVec 8)) :
    0 < (tokens (isSep delim) (c :: l)).length := by
  obtain ⟨w, hne, hw, heq | ⟨d, s, rest, heq, hs, -⟩⟩ := split_token hc l
  · rw [heq, tokens_word hne hw]
    exact Nat.succ_pos _
  · rw [heq, tokens_word_sep hne hw (hs d List.mem_cons_self)]
    exact Nat.succ_pos _

/-- The tokens of a string cut after its first one. -/
theorem tokens_token {d : BitVec 8} {seps : List (BitVec 8)} (rest : List (BitVec 8)) (hne : w ≠ [])
    (hw : ∀ c ∈ w, isSep delim c = false) (hseps : ∀ c ∈ d :: seps, isSep delim c = true) :
    tokens (isSep delim) (w ++ d :: (seps ++ rest)) = w :: tokens (isSep delim) rest := by
  rw [tokens_word_sep hne hw (hseps d List.mem_cons_self),
    tokens_seps_append fun c hc => hseps c (List.mem_cons_of_mem d hc)]

theorem runsOff_token_iff {c d : BitVec 8} {seps rest : List (BitVec 8)}
    (htoks : tokens (isSep delim) (w ++ d :: (seps ++ c :: rest))
      = w :: tokens (isSep delim) (c :: rest)) (hc : isSep delim c = false) :
    RunsOff delim (w ++ d :: (seps ++ c :: rest)) (n + 1) ↔ RunsOff delim (c :: rest) n := by
  refine runsOff_append_iff (v := w ++ d :: seps) ?_ (List.cons_ne_nil c rest) (tokens_pos hc rest) ?_
  · rw [List.append_assoc, List.cons_append]
  · rw [htoks, List.length_cons]

/-- Delimiters in front do not matter. -/
theorem runsOff_seps_iff {seps : List (BitVec 8)} (hseps : ∀ c ∈ seps, isSep delim c = true) :
    RunsOff delim (seps ++ l) n ↔ RunsOff delim l n := by
  unfold RunsOff
  rw [tokens_seps_append hseps]
  refine and_congr_left fun ⟨hpos, _⟩ => ?_
  have hne : l ≠ [] := by
    rintro rfl
    rw [tokens_nil] at hpos
    exact absurd hpos (Nat.lt_irrefl 0)
  rw [List.getLast?_append, List.getLast?_eq_some_getLast hne]
  rfl

/-- The first loop of `strsplit`. -/
theorem strsplit_skip (delim : CStr) (hl : ∀ c ∈ l, c ≠ 0) (h : BytesAt m a (l ++ [0]))
    (hlim : a + l.length < lim) :
    ∃ seps rest, l = seps ++ rest ∧ (∀ c ∈ seps, isSep delim c = true) ∧
      (rest = [] ∨ ∃ c l', rest = c :: l' ∧ isSep delim c = false) ∧
      skipWhile (fun c => c ≠ 0 && (strchr delim.chars c).isSome) m (lim - a) a
        = some (a + seps.length) ∧
      BytesAt m (a + seps.length) (rest ++ [0]) := by
  obtain ⟨seps, rest, rfl, hseps, hrest⟩ := exists_run (isSep delim) l
  rw [List.append_assoc] at h
  rw [List.length_append] at hlim
  refine ⟨seps, rest, rfl, hseps, hrest, ?_, (bytesAt_append.mp h).2⟩
  have htest : ∀ c ∈ seps, (c ≠ 0 && (strchr delim.chars c).isSome) = true := by
    intro c hc
    have hsep : (strchr delim.chars c).isSome = true := hseps c hc
    rw [hsep, Bool.and_true, decide_eq_true_eq]
    exact hl c (List.mem_append_left _ hc)
  rcases hrest with rfl | ⟨c, l', rfl, hc⟩
  · exact skipWhile_run htest (by simp) h (by omega)
  · refine skipWhile_run htest ?_ h (by omega)
    have hnone : (strchr delim.chars c).isSome = false := hc
    rw [hnone, Bool.and_false]

/-- One turn of the main loop, at a token followed by `c`. -/
theorem strsplitLoop_token {c : BitVec 8} {rest : List (BitVec 8)} (hne : w ≠ [])
    (hw : ∀ c ∈ w, c ≠ 0 ∧ isSep delim c = false) (hc : isSep delim c = true)
    (h : BytesAt m a (w ++ c :: rest)) (hlim : a + w.length < lim) :
    strsplitLoop lim delim (n + 1) a m =
      if c = 0 then some ([a], m)
      else
        (skipWhile (isSep delim) (Function.update m (a + w.length) 0)
          (lim - (a + w.length + 1)) (a + w.length + 1)).bind fun next =>
            (strsplitLoop lim delim n next (Function.update m (a + w.length) 0)).map fun r =>
              (a :: r.1, r.2) := by
  obtain ⟨b, w', rfl⟩ := List.exists_cons_of_ne_nil hne
  have hb : m a = b := h.1
  have hlast : m (a + (b :: w').length) = c := (bytesAt_append.mp h).2.1
  have hscan : skipWhile (fun c => c ≠ 0 && (strchr delim.chars c).isNone) m (lim - a) a
      = some (a + (b :: w').length) := by
    refine skipWhile_run (fun x hx => ?_) ?_ h (by omega)
    · obtain ⟨hx0, hxs⟩ := hw x hx
      have hnone : (strchr delim.chars x).isNone = true := by simpa [isSep] using hxs
      simpa [hnone] using hx0
    · have hsome : (strchr delim.chars c).isSome = true := hc
      rw [Option.isSome_iff_exists] at hsome
      obtain ⟨i, hi⟩ := hsome
      simp [hi]
  have hlt : ¬ lim ≤ a := by omega
  rw [strsplitLoop, if_neg hlt, hb, if_neg (hw b List.mem_cons_self).1, hscan]
  simp only [Option.bind_eq_bind, Option.bind_some, hlast]
  by_cases h0 : c = 0
  · rw [if_pos h0, if_pos h0]
  · rw [if_neg h0, if_neg h0]
    unfold isSep
    congr 1
    funext next
    cases strsplitLoop lim delim n next (Function.update m (a + (b :: w').length) 0) with
    | none => rfl
    | some r => rfl

/-- One turn at a token that is followed by delimiters and another token. -/
theorem strsplitLoop_next {d c : BitVec 8} {seps rest : List (BitVec 8)} (hne : w ≠ [])
    (hw : ∀ c ∈ w, c ≠ 0 ∧ isSep delim c = false) (hd0 : d ≠ 0)
    (hseps : ∀ c ∈ d :: seps, isSep delim c = true) (hc : isSep delim c = false)
    (h : BytesAt m a (w ++ d :: (seps ++ c :: rest)))
    (hlim : a + w.length + 1 + seps.length < lim) :
    strsplitLoop lim delim (n + 1) a m =
      (strsplitLoop lim delim n (a + w.length + 1 + seps.length)
        (Function.update m (a + w.length) 0)).map (fun r => (a :: r.1, r.2)) ∧
    BytesAt (Function.update m (a + w.length) 0) a (w ++ [0]) ∧
    BytesAt (Function.update m (a + w.length) 0) (a + w.length + 1 + seps.length) (c :: rest) := by
  obtain ⟨hbw, -, hbrest⟩ := bytesAt_append.mp h
  have hbrest' : BytesAt (Function.update m (a + w.length) 0) (a + w.length + 1)
      (seps ++ c :: rest) :=
    hbrest.congr fun b hlo _ => Function.update_of_ne (by omega) _ _
  refine ⟨?_, ?_, (bytesAt_append.mp hbrest').2⟩
  · rw [strsplitLoop_token hne hw (hseps d List.mem_cons_self) h (by omega), if_neg hd0,
      skipWhile_run (fun c hc => hseps c (List.mem_cons_of_mem d hc)) hc hbrest' (by omega),
      Option.bind_some]
  · refine bytesAt_append.mpr ⟨hbw.congr fun b _ hhi => ?_, ?_, trivial⟩
    · exact Function.update_of_ne (by omega) _ _
    · exact Function.update_self ..

/-- The main loop, at a string that is empty or begins with a token, when it does
not run off: the addresses of the first tokens, each closed by a NUL, and nothing is
written outside the string. -/
theorem strsplitLoop_spec : ∀ (n : Nat) (l : List (BitVec 8)) (a : Nat) (m : Mem),
    (∀ c ∈ l, c ≠ 0) → BytesAt m a (l ++ [0]) →
    (l = [] ∨ ∃ c l', l = c :: l' ∧ isSep delim c = false) → a + l.length < lim →
    ¬ RunsOff delim l n →
    ∃ m', strsplitLoop lim delim n a m
        = some ((tokenStarts (isSep delim) false a l).take n, m') ∧
      List.Forall₂ (fun p t => BytesAt m' p (t ++ [0]) ∧ p + t.length < lim)
        ((tokenStarts (isSep delim) false a l).take n) ((tokens (isSep delim) l).take n) ∧
      ∀ b, b < a ∨ a + l.length ≤ b → m' b = m b := by
  intro n
  induction n with
  | zero =>
    intro l a m _ _ _ hlim _
    refine ⟨m, ?_, ?_, fun b _ => rfl⟩
    · rw [strsplitLoop, if_neg (by omega), List.take_zero]
    · rw [List.take_zero, List.take_zero]
      exact List.Forall₂.nil
  | succ n ih =>
    intro l a m hl hbytes hhead hlim hoff
    rcases hhead with rfl | ⟨c, l', rfl, hc⟩
    · refine ⟨m, ?_, ?_, fun b _ => rfl⟩
      · have h0 : m a = 0 := hbytes.1
        have hlt : ¬ lim ≤ a := by
          rw [List.length_nil] at hlim
          omega
        rw [strsplitLoop, if_neg hlt, if_pos h0]
        rfl
      · rw [tokens_nil, List.take_nil]
        exact List.Forall₂.nil
    · obtain ⟨w, hne, hw, hend | ⟨d, seps, rest, heq, hseps, hrest⟩⟩ := split_token hc l'
      · -- the last token
        rw [hend] at hl hbytes hlim ⊢
        have hw' : ∀ c ∈ w, c ≠ 0 ∧ isSep delim c = false := fun c hc => ⟨hl c hc, hw c hc⟩
        have hstarts : (tokenStarts (isSep delim) false a w).take (n + 1) = [a] := by
          rw [← List.append_nil w, tokenStarts_word hne hw, List.take_succ_cons, tokenStarts,
            List.take_nil]
        rw [hstarts]
        refine ⟨m, ?_, ?_, fun b _ => rfl⟩
        · rw [strsplitLoop_token hne hw' (isSep_zero delim) hbytes hlim, if_pos rfl]
        · rw [tokens_word hne hw, List.take_cons (Nat.succ_pos n), List.take_nil]
          exact List.Forall₂.cons ⟨hbytes, hlim⟩ List.Forall₂.nil
      · -- a token and the next one
        rw [heq] at hl hbytes hlim hoff ⊢
        have hw' : ∀ c ∈ w, c ≠ 0 ∧ isSep delim c = false :=
          fun c hc => ⟨hl c (List.mem_append_left _ hc), hw c hc⟩
        have hd0 : d ≠ 0 := hl d (List.mem_append_right _ List.mem_cons_self)
        have htoks := tokens_token rest hne hw hseps
        rw [htoks]
        rcases hrest with rfl | ⟨c', l'', rfl, hc'⟩
        · exact absurd (runsOff_of_seps hseps htoks) hoff
        simp only [List.append_assoc, List.cons_append] at hbytes
        simp only [List.length_append, List.length_cons] at hlim
        have hnlim : a + w.length + 1 + seps.length < lim := by omega
        have hstarts : tokenStarts (isSep delim) false a (w ++ d :: (seps ++ c' :: l''))
            = a :: tokenStarts (isSep delim) false (a + w.length + 1 + seps.length) (c' :: l'') := by
          rw [tokenStarts_word hne hw, tokenStarts, if_pos (hseps d List.mem_cons_self),
            tokenStarts_seps fun c hc => hseps c (List.mem_cons_of_mem d hc)]
        obtain ⟨hturn, hclosed, hnext⟩ :=
          strsplitLoop_next (n := n) hne hw' hd0 hseps hc' hbytes hnlim
        obtain ⟨m', hloop, hall, hframe⟩ := ih (c' :: l'') _ _
          (fun c hc => hl c (by simp [hc])) hnext (.inr ⟨c', l'', rfl, hc'⟩)
          (by rw [List.length_cons]; omega)
          (fun hoff' => hoff ((runsOff_token_iff htoks hc').mpr hoff'))
        rw [hturn, hloop, Option.map_some, hstarts, List.take_succ_cons]
        refine ⟨m', rfl, ?_, ?_⟩
        · rw [List.take_succ_cons]
          refine List.Forall₂.cons ⟨?_, by omega⟩ hall
          refine hclosed.congr fun b _ hhi => hframe b (.inl ?_)
          rw [List.length_append, List.length_singleton] at hhi
          omega
        · intro b hb
          simp only [List.length_append, List.length_cons] at hb
          rw [hframe b (by rw [List.length_cons]; omega)]
          exact Function.update_of_ne (by omega) _ _

/-- The main loop runs off in a memory with only zeros behind the string. -/
theorem strsplitLoop_fault : ∀ (n : Nat) (l : List (BitVec 8)) (a : Nat) (m : Mem),
    (∀ c ∈ l, c ≠ 0) → BytesAt m a (l ++ [0]) →
    (l = [] ∨ ∃ c l', l = c :: l' ∧ isSep delim c = false) → a + l.length < lim →
    (∀ b, a + l.length ≤ b → m b = 0) → RunsOff delim l n →
    strsplitLoop lim delim n a m = none := by
  intro n
  induction n with
  | zero =>
    rintro l a m - - - - - ⟨-, hpos, hle⟩
    omega
  | succ n ih =>
    intro l a m hl hbytes hhead hlim hzero hoff
    rcases hhead with rfl | ⟨c, l', rfl, hc⟩
    · have hpos := hoff.2.1
      rw [tokens_nil] at hpos
      exact absurd hpos (Nat.lt_irrefl 0)
    · obtain ⟨w, hne, hw, hend | ⟨d, seps, rest, heq, hseps, hrest⟩⟩ := split_token hc l'
      · -- a string that ends with a token does not run off
        rw [hend] at hoff
        obtain ⟨⟨x, hx, hsep⟩, -⟩ := hoff
        rw [hw x (List.mem_of_getLast? hx)] at hsep
        exact absurd hsep (by decide)
      · rw [heq] at hl hbytes hlim hoff hzero
        have hw' : ∀ c ∈ w, c ≠ 0 ∧ isSep delim c = false :=
          fun c hc => ⟨hl c (List.mem_append_left _ hc), hw c hc⟩
        have hd0 : d ≠ 0 := hl d (List.mem_append_right _ List.mem_cons_self)
        have htoks := tokens_token rest hne hw hseps
        simp only [List.length_append, List.length_cons] at hlim hzero
        simp only [List.append_assoc, List.cons_append] at hbytes
        rcases hrest with rfl | ⟨c', l'', rfl, hc'⟩
        · -- the delimiters and then the zeros are skipped to the limit
          rw [strsplitLoop_token hne hw' (hseps d List.mem_cons_self) hbytes (by omega),
            if_neg hd0, skipWhile_none, Option.bind_none]
          obtain ⟨-, -, hbseps⟩ := bytesAt_append.mp hbytes
          intro b hlo hhi
          rw [Function.update_of_ne (by omega)]
          rw [List.nil_append] at hbseps
          rw [List.length_nil] at hzero
          by_cases hb : b < a + w.length + 1 + seps.length
          · refine hseps _ (List.mem_cons_of_mem d ?_)
            exact (bytesAt_append.mp hbseps).1.mem hlo hb
          · rw [hzero b (by omega)]
            exact isSep_zero delim
        · simp only [List.length_cons] at hzero hlim
          have hnlim : a + w.length + 1 + seps.length < lim := by omega
          obtain ⟨hturn, -, hnext⟩ :=
            strsplitLoop_next (n := n) hne hw' hd0 hseps hc' hbytes hnlim
          rw [hturn, ih (c' :: l'') _ _ (fun c hc => hl c (by simp [hc])) hnext
            (.inr ⟨c', l'', rfl, hc'⟩) (by rw [List.length_cons]; omega) ?_
            ((runsOff_token_iff htoks hc').mp hoff)]
          · rfl
          · intro b hb
            rw [List.length_cons] at hb
            rw [Function.update_of_ne (by omega)]
            exact hzero b (by omega)

/-- `strsplit` of a string that does not run off: the addresses where its first tokens
begin, each token closed by a NUL, and nothing written outside the string. -/
theorem strsplit_starts (hl : ∀ c ∈ l, c ≠ 0) (h : BytesAt m a (l ++ [0]))
    (hlim : a + l.length < lim) (hoff : ¬ RunsOff delim l n) :
    ∃ m', strsplit lim delim m a n
        = some ((tokenStarts (isSep delim) false a l).take n, m') ∧
      List.Forall₂ (fun p t => BytesAt m' p (t ++ [0]) ∧ p + t.length < lim)
        ((tokenStarts (isSep delim) false a l).take n) ((tokens (isSep delim) l).take n) ∧
      ∀ b, b < a ∨ a + l.length ≤ b → m' b = m b := by
  obtain ⟨seps, rest, rfl, hseps, hrest, hskip, hrest'⟩ := strsplit_skip delim hl h hlim
  have hend : a + seps.length + rest.length < lim := by
    rw [List.length_append] at hlim
    omega
  obtain ⟨m', hloop, hall, hframe⟩ := strsplitLoop_spec n rest _ m
    (fun c hc => hl c (List.mem_append_right _ hc)) hrest' hrest hend
    (fun h => hoff ((runsOff_seps_iff hseps).mpr h))
  rw [tokenStarts_seps hseps, tokens_seps_append hseps]
  refine ⟨m', ?_, hall, fun b hb => hframe b ?_⟩
  · rw [strsplit, hskip, Option.bind_eq_bind, Option.bind_some, hloop]
  · rw [List.length_append] at hb
    omega

theorem strsplit_spec (hl : ∀ c ∈ l, c ≠ 0) (h : BytesAt m a (l ++ [0])) (hlim : a + l.length < lim)
    (hoff : ¬ RunsOff delim l n) :
    ∃ addrs m', strsplit lim delim m a n = some (addrs, m') ∧
      List.Forall₂ (fun p t => BytesAt m' p (t ++ [0]) ∧ p + t.length < lim) addrs
        ((tokens (isSep delim) l).take n) := by
  obtain ⟨m', hsplit, hall, -⟩ := strsplit_starts hl h hlim hoff
  exact ⟨_, m', hsplit, hall⟩

/-- `strsplit` of a string that runs off, before zeros. -/
theorem strsplit_fault (hl : ∀ c ∈ l, c ≠ 0) (h : BytesAt m a (l ++ [0]))
    (hlim : a + l.length < lim) (hzero : ∀ b, a + l.length ≤ b → m b = 0)
    (hoff : RunsOff delim l n) : strsplit lim delim m a n = none := by
  obtain ⟨seps, rest, rfl, hseps, hrest, hskip, hrest'⟩ := strsplit_skip delim hl h hlim
  rw [List.length_append] at hlim hzero
  rw [strsplit, hskip, Option.bind_eq_bind, Option.bind_some]
  exact strsplitLoop_fault n rest _ m (fun c hc => hl c (List.mem_append_right _ hc)) hrest' hrest
    (by omega) (fun b hb => hzero b (by omega)) ((runsOff_seps_iff hseps).mp hoff)

end

/-! ## When a string is split -/

/-- The delimiters of a set. -/
def inSet (delim : CStr) (c : BitVec 8) : Bool := decide (c ∈ delim.chars)

/-- The loops take the same characters for delimiters, but for the NUL. -/
theorem isSep_eq_inSet (delim : CStr) {c : BitVec 8} (hc : c ≠ 0) :
    isSep delim c = inSet delim c := by
  unfold isSep inSet
  induction delim.chars with
  | nil => simpa [strchr] using hc
  | cons b s ih =>
    rw [strchr]
    by_cases hb : b = c
    · simp [hb]
    · rw [if_neg hb, Option.isSome_map, ih]
      simp [Ne.symm hb]

/-- Wherever a string is in memory, `strsplit` returns the addresses of its first `maxtoken`
runs without a delimiter, each closed by a NUL, and neither reads nor writes a byte behind
the NUL of the string. -/
def SplitsExactly (delim s : CStr) (maxtoken : Nat) : Prop :=
  ∀ (m : Mem) (a : Nat), BytesAt m a (s.chars ++ [0]) → ∃ addrs m',
    strsplit (a + s.chars.length + 1) delim m a maxtoken = some (addrs, m') ∧
    addrs.length = min maxtoken (tokens (inSet delim) s.chars).length ∧
    addrs = (tokenStarts (inSet delim) false a s.chars).take maxtoken ∧
    List.Forall₂ (fun p t => BytesAt m' p (t ++ [0])) addrs
      ((tokens (inSet delim) s.chars).take maxtoken) ∧
    ∀ b, b < a ∨ a + s.chars.length < b → m' b = m b

theorem bytesAt_byte (s : CStr) : BytesAt s.byte 0 (s.chars ++ [0]) := by
  have hall : ∀ (v w : List (BitVec 8)), s.chars = v ++ w →
      BytesAt s.byte v.length (w ++ [0]) := by
    intro v w
    induction w generalizing v with
    | nil =>
      intro hs
      refine ⟨?_, trivial⟩
      rw [s.byte_eq_zero_iff, hs, List.append_nil]
    | cons c w ih =>
      intro hs
      refine ⟨?_, ?_⟩
      · rw [CStr.byte, hs]
        simp
      · have hnext := ih (v ++ [c]) (by rw [hs, List.append_assoc, List.singleton_append])
        rwa [List.length_append, List.length_singleton] at hnext
  exact hall [] s.chars rfl

/-- `strsplit` does what is said of it unless the string ends with a delimiter, behind a run
that is not beyond the limit: the last loop then takes the NUL for a delimiter as well. -/
theorem strsplit_exact_iff (delim s : CStr) (maxtoken : Nat) :
    SplitsExactly delim s maxtoken ↔
      ¬ ((∃ c, s.chars.getLast? = some c ∧ c ∈ delim.chars) ∧
        0 < (tokens (inSet delim) s.chars).length ∧
        (tokens (inSet delim) s.chars).length ≤ maxtoken) := by
  have hsame : ∀ c ∈ s.chars, isSep delim c = inSet delim c :=
    fun c hc => isSep_eq_inSet delim (s.nonzero c hc)
  have hoff : RunsOff delim s.chars maxtoken ↔
      (∃ c, s.chars.getLast? = some c ∧ c ∈ delim.chars) ∧
        0 < (tokens (inSet delim) s.chars).length ∧
        (tokens (inSet delim) s.chars).length ≤ maxtoken := by
    unfold RunsOff
    rw [tokens_congr hsame]
    refine and_congr_left fun _ => exists_congr fun c => and_congr_right fun hc => ?_
    rw [hsame c (List.mem_of_getLast? hc), inSet, decide_eq_true_iff]
  rw [← hoff]
  constructor
  · intro hsplit hrun
    obtain ⟨addrs, m', heq, -⟩ := hsplit s.byte 0 (bytesAt_byte s)
    rw [strsplit_fault s.nonzero (bytesAt_byte s) (Nat.lt_succ_self _) ?_ hrun] at heq
    · exact absurd heq (by simp)
    · intro b hb
      rw [s.byte_eq_zero_iff]
      omega
  · intro hrun m a hbytes
    obtain ⟨m', heq, hall, hframe⟩ := strsplit_starts s.nonzero hbytes (Nat.lt_succ_self _) hrun
    rw [tokens_congr hsame, tokenStarts_congr hsame] at hall
    rw [tokenStarts_congr hsame] at heq
    refine ⟨_, m', heq, ?_, rfl, ?_, fun b hb => hframe b (by omega)⟩
    · rw [hall.length_eq, List.length_take]
    · exact hall.imp fun _ _ h => h.1

/-- `"a/"` with the delimiter `/`: the call reads on behind the NUL. -/
theorem strsplit_reads_on :
    strsplit 3 ⟨[slash], by decide⟩ (CStr.byte ⟨[97, slash], by decide⟩) 0 4 = none ∧
    ¬ SplitsExactly ⟨[slash], by decide⟩ ⟨[97, slash], by decide⟩ 4 := by
  refine ⟨by decide, fun h => ?_⟩
  refine (strsplit_exact_iff _ _ _).mp h ⟨⟨slash, rfl, by decide⟩, ?_, ?_⟩
  · decide
  · decide

end Ko6.Common
