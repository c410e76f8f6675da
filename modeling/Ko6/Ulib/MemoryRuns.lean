import Ko6.Ulib.Memory

set_option autoImplicit false

/-!
# Ulib: runs of the user heap

In a heap that ends below 0x80000000 the blocks tile the heap after any history
of requests and releases, and no call writes into an allocated block.  From that
address on `LINE_CEIL` moves an aligned address to the next line, because `CEIL`
divides negative numbers: the first request for all of the heap breaks the
tiling.
-/

namespace Ko6.Ulib

open Ko6.Lib

/-! ## The area of the heap -/

/-- A heap of lines: where it is, and how long its lines are. -/
structure Area where
  lineShift : Nat
  beg : Nat
  end_ : Nat
  line_min : 2 ≤ lineShift
  line_max : lineShift < 32
  beg_aligned : 2 ^ lineShift ∣ beg
  end_aligned : 2 ^ lineShift ∣ end_
  beg_le : beg ≤ end_
  end_lt : end_ < 2 ^ 32
  small : end_ - beg < 2 ^ 26

namespace Area

variable (A : Area)

def line : Nat := 2 ^ A.lineShift

/-- The static variables after `malloc_init`. -/
def heap : Heap := { cacheLineSize := A.line, beg := A.beg, end_ := A.end_ }

@[simp] theorem heap_beg : A.heap.beg = A.beg := rfl
@[simp] theorem heap_end : A.heap.end_ = A.end_ := rfl
@[simp] theorem heap_line : A.heap.cacheLineSize = A.line := rfl

theorem line_pos : 0 < A.line := Nat.two_pow_pos _

theorem four_dvd_line : 4 ∣ A.line := pow_dvd_pow 2 A.line_min

theorem four_le_line : 4 ≤ A.line := Nat.le_of_dvd A.line_pos A.four_dvd_line

/-- A heap with a line in it has lines of at most 2^25 bytes. -/
theorem line_le (h : A.beg < A.end_) : A.line ≤ 2 ^ 25 := by
  have hdvd : A.line ∣ A.end_ - A.beg := Nat.dvd_sub A.end_aligned A.beg_aligned
  have hle : A.line ≤ A.end_ - A.beg := Nat.le_of_dvd (by omega) hdvd
  have hlt : 2 ^ A.lineShift < 2 ^ 26 := Nat.lt_of_le_of_lt hle A.small
  have hshift : A.lineShift < 26 := (Nat.pow_lt_pow_iff_right (by decide)).mp hlt
  exact Nat.pow_le_pow_right (by decide) (by omega)

/-- Two multiples of a line are a line apart. -/
theorem add_line_le {a b : Nat} (ha : A.line ∣ a) (hb : A.line ∣ b) (h : a < b) :
    a + A.line ≤ b := by
  have hle : A.line ≤ b - a := Nat.le_of_dvd (by omega) (Nat.dvd_sub hb ha)
  omega

theorem line_dvd_pow (h : A.beg < A.end_) {n : Nat} (hn : 25 ≤ n) : A.line ∣ 2 ^ n := by
  have hle : 2 ^ A.lineShift ≤ 2 ^ 25 := A.line_le h
  have hshift : A.lineShift ≤ 25 := (Nat.pow_le_pow_iff_right (by decide)).mp hle
  exact pow_dvd_pow 2 (by omega)

/-- A heap that is one line longer has no more than 2^26 bytes. -/
theorem longer_le (h : A.beg < A.end_) : A.end_ - A.beg + A.line ≤ 2 ^ 26 :=
  A.add_line_le (Nat.dvd_sub A.end_aligned A.beg_aligned) (A.line_dvd_pow h (by decide)) A.small

/-- The lines up to a multiple of a line. -/
theorem line_div (c : Nat) : (A.line * c + A.line - 1) / A.line = c := by
  have hpos := A.line_pos
  apply Nat.div_eq_of_lt_le
  · rw [Nat.mul_comm]
    omega
  · rw [Nat.add_mul, Nat.one_mul, Nat.mul_comm c]
    omega

/-- Below 0x80000000 the address of a line is left alone by `CEIL`. -/
theorem ceil_low (h : A.beg < A.end_) {a : Nat} (ha : A.line ∣ a) (hlt : a < 2 ^ 31) :
    ceil a A.line = a := by
  have hline := A.line_le h
  have hpos := A.line_pos
  have hroom := A.add_line_le ha (A.line_dvd_pow h (by decide : 25 ≤ 31)) hlt
  obtain ⟨c, rfl⟩ := ha
  rw [ceil_eq hpos, sdivMul_of_lt (by omega) (by omega), A.line_div]

/-- From 0x80000000 on it is moved to the next line. -/
theorem ceil_high (h : A.beg < A.end_) {a : Nat} (ha : A.line ∣ a) (hlo : 2 ^ 31 ≤ a)
    (hhi : a < 2 ^ 32) : ceil a A.line = (a + A.line) % 2 ^ 32 := by
  have hline := A.line_le h
  have hpos := A.line_pos
  have hfour := A.four_le_line
  have hroom := A.add_line_le ha (A.line_dvd_pow h (by decide : 25 ≤ 32)) hhi
  obtain ⟨c, hc⟩ : A.line ∣ 2 ^ 32 - a :=
    Nat.dvd_sub (A.line_dvd_pow h (by decide)) ha
  have hcpos : 0 < c := by
    rcases Nat.eq_zero_or_pos c with rfl | hc0
    · omega
    · exact hc0
  obtain ⟨c, rfl⟩ := Nat.exists_eq_succ_of_ne_zero hcpos.ne'
  rw [Nat.mul_succ] at hc
  have hdiv : (2 ^ 32 - (a + A.line - 1)) / A.line = c := by
    apply Nat.div_eq_of_lt_le
    · rw [Nat.mul_comm]
      omega
    · rw [Nat.add_mul, Nat.one_mul, Nat.mul_comm c]
      omega
  rw [ceil_eq hpos, sdivMul_of_ge (by omega) (by omega) (by omega), hdiv]
  congr 1
  omega

/-- `CEIL` of a number of bytes, in numbers without bound. -/
def lineCeil (n : Nat) : Nat := A.line * ((n + A.line - 1) / A.line)

theorem line_dvd_lineCeil (n : Nat) : A.line ∣ A.lineCeil n := Nat.dvd_mul_right _ _

theorem le_lineCeil (n : Nat) : n ≤ A.lineCeil n := by
  have hpos := A.line_pos
  have hq := Nat.lt_div_mul_add hpos (a := n + A.line - 1)
  rw [Nat.mul_comm] at hq
  unfold lineCeil
  omega

/-- A request is rounded to whole lines, or, where `CEIL` is negative, to more than any block
can have.  Only the last sizes before 2³² are not. -/
theorem needed_cases (h : A.beg < A.end_) {size : Nat} (hsize : size + 2 * A.line + 2 < 2 ^ 32) :
    4 * needed A.heap size = A.lineCeil (size + 4) ∨
      2 ^ 31 < size + 4 + A.line ∧ 2 ^ 24 ≤ needed A.heap size := by
  have hline := A.line_le h
  have hpos := A.line_pos
  have hneed : needed A.heap size = ceil (size + 4) A.line / 4 := rfl
  rw [hneed, ceil_eq hpos]
  rcases Nat.lt_or_ge (size + 4 + A.line - 1) (2 ^ 31) with hlt | hge
  · left
    rw [sdivMul_of_lt (by omega) hlt, Nat.mul_div_cancel' (A.four_dvd_line.mul_right _)]
    rfl
  · refine .inr ⟨by omega, ?_⟩
    have hle := Nat.mul_div_le (2 ^ 32 - (size + 4 + A.line - 1)) A.line
    have hq : 0 < A.line * ((2 ^ 32 - (size + 4 + A.line - 1)) / A.line) := by
      apply Nat.mul_pos hpos
      exact Nat.div_pos (by omega) hpos
    rw [sdivMul_of_ge (by omega) hge (by omega)]
    omega

/-- A request is rounded to whole lines with room for the information, or to more
than any block can have. -/
theorem needed_spec (h : A.beg < A.end_) {size : Nat} (hsize : size + 2 * A.line + 2 < 2 ^ 32) :
    (A.line ∣ 4 * needed A.heap size ∧ size + 4 ≤ 4 * needed A.heap size) ∨
      2 ^ 24 ≤ needed A.heap size := by
  rcases A.needed_cases h hsize with heq | ⟨-, hbig⟩
  · rw [heq]
    exact .inl ⟨A.line_dvd_lineCeil _, A.le_lineCeil _⟩
  · exact .inr hbig

/-- The requests that are no negative numbers do not wrap around. -/
theorem request_lt (h : A.beg < A.end_) {size : Nat} (hsize : size ≤ 0x7FFFFF00) :
    size + 2 * A.line + 2 < 2 ^ 32 := by
  have hline := A.line_le h
  omega

end Area

/-! ## The invariant -/

/-- The pointers that are allocated, and the sizes they were asked with. -/
abbrev Live : Type := Nat → Option Nat

/-- The blocks `bs` tile the heap, and the full ones are the allocated ones. -/
structure HeapInv (A : Area) (m : Mem) (live : Live) (bs : List Nat) : Prop where
  tiles : Tiles (nextBlock m) A.beg bs A.end_
  lines : ∀ b ∈ bs, A.line ∣ 4 * blockSize m b
  magic : ∀ b ∈ bs, magic m b = magicHeap
  full : ∀ b ∈ bs, full m b = 1 ↔ live (b + 4) ≠ none
  room : ∀ p n, live p = some n → ∃ b ∈ bs, p = b + 4 ∧ n + 4 ≤ 4 * blockSize m b

/-- The allocated blocks are not written. -/
def Keeps (live : Live) (m m' : Mem) : Prop :=
  ∀ b, live (b + 4) ≠ none → ∀ a, b ≤ a → a < nextBlock m b → m' a = m a

theorem keeps_refl (live : Live) (m : Mem) : Keeps live m m := fun _ _ _ _ _ => rfl

/-- The block at `b` is full, or followed by a full block or the end of the heap. -/
def Parted (A : Area) (m : Mem) (b : Nat) : Prop :=
  full m b = 0 → nextBlock m b = A.end_ ∨ full m (nextBlock m b) ≠ 0

namespace HeapInv

section
variable {A : Area} {m m' : Mem} {live : Live} {bs xs ys : List Nat} {b c p n : Nat}

theorem nonempty (h : HeapInv A m live bs) (hb : b ∈ bs) : A.beg < A.end_ := by
  have hlo := h.tiles.lo b hb
  have hhi := h.tiles.hi b hb
  omega

theorem line_le_size (h : HeapInv A m live bs) (hb : b ∈ bs) :
    A.line ≤ 4 * blockSize m b := by
  have hlt := (h.tiles.hi b hb).1
  rw [nextBlock] at hlt
  exact Nat.le_of_dvd (by omega) (h.lines b hb)

theorem four_le (h : HeapInv A m live bs) (hb : b ∈ bs) : b + 4 ≤ nextBlock m b := by
  have hsize := h.line_le_size hb
  have hfour := A.four_le_line
  rw [nextBlock]
  omega

theorem aligned (h : HeapInv A m live bs) (hb : b ∈ bs) : A.line ∣ b := by
  apply h.tiles.forall_mem A.beg_aligned _ b hb
  intro c hc hdvd
  exact Nat.dvd_add hdvd (h.lines c hc)

/-- The pointer to the next block does not wrap around. -/
theorem ptrAdd_eq (h : HeapInv A m live bs) (hb : b ∈ bs) :
    ptrAdd b (blockSize m b) = nextBlock m b := by
  have hhi := (h.tiles.hi b hb).2
  have hend := A.end_lt
  rw [nextBlock] at hhi
  rw [ptrAdd, nextBlock, Nat.mod_eq_of_lt (by omega)]

theorem length_le (h : HeapInv A m live bs) : bs.length ≤ A.heap.words := by
  have hmul := Tiles.length_mul_le h.tiles fun b hb => h.four_le hb
  have hwords : A.heap.words = (A.end_ - A.beg) / 4 := rfl
  omega

theorem info_apart (h : HeapInv A m live bs) (hb : b ∈ bs) (hc : c ∈ bs) (hne : b ≠ c) :
    b + 4 ≤ c ∨ c + 4 ≤ b := by
  have hb4 := h.four_le hb
  have hc4 := h.four_le hc
  have hap := h.tiles.apart hb hc hne
  omega

theorem full_eq_zero (h : HeapInv A m live bs) (hb : b ∈ bs) :
    Ulib.full m b = 0 ↔ live (b + 4) = none := by
  have hfull := h.full b hb
  constructor
  · intro h0
    rw [h0] at hfull
    by_contra hne
    exact absurd (hfull.mpr hne) (by decide)
  · intro hnone
    rcases BitVec.eq_zero_or_eq_one (Ulib.full m b) with h0 | h1
    · exact h0
    · exact absurd hnone (hfull.mp h1)

/-- The block of an allocated pointer. -/
theorem live_mem (h : HeapInv A m live bs) (hlive : live (b + 4) ≠ none) : b ∈ bs := by
  obtain ⟨n, hn⟩ := Option.ne_none_iff_exists'.mp hlive
  obtain ⟨c, hc, heq, -⟩ := h.room _ n hn
  have hbc : b = c := by omega
  rwa [hbc]

/-- What is written inside a free block leaves the allocated ones alone. -/
theorem keeps_within (h : HeapInv A m live bs) (hb : b ∈ bs) (hfree : live (b + 4) = none)
    (hm : ∀ a, a < b ∨ nextBlock m b ≤ a → m' a = m a) : Keeps live m m' := by
  intro c hlive a hlo hhi
  have hne : b ≠ c := by
    rintro rfl
    exact hlive hfree
  have hap := h.tiles.apart hb (h.live_mem hlive) hne
  exact hm a (by omega)

theorem keeps_only (h : HeapInv A m live bs) (hb : b ∈ bs) (hfree : live (b + 4) = none)
    (hm : Only b m m') : Keeps live m m' := by
  have hfour := h.four_le hb
  exact h.keeps_within hb hfree fun a ha => hm a (by omega)

theorem keeps_trans {m'' : Mem} (h : HeapInv A m live bs) (hk : Keeps live m m')
    (hk' : Keeps live m' m'') : Keeps live m m'' := by
  intro b hlive a hlo hhi
  have hfour := h.four_le (h.live_mem hlive)
  have hinfo : SameInfo m m' b :=
    sameInfo_of_bytes fun a hlo hhi => hk b hlive a hlo (by omega)
  rw [← hk b hlive a hlo hhi]
  exact hk' b hlive a hlo (hinfo.next ▸ hhi)

theorem mem_insert {x : Nat} : x ∈ xs ++ b :: ys ↔ x = b ∨ x ∈ xs ++ ys := by
  rw [List.perm_middle.mem_iff, List.mem_cons]

/-- The block at `b` is not among the others. -/
theorem ne_of_mem (h : HeapInv A m live (xs ++ b :: ys)) {x : Nat} (hx : x ∈ xs ++ ys) :
    x ≠ b := by
  have hnodup := (List.perm_middle.nodup_iff.mp h.tiles.nodup)
  rintro rfl
  exact (List.nodup_cons.mp hnodup).1 hx

/-- A write to the information of one block leaves that of the others. -/
theorem sameInfo_of_only (h : HeapInv A m live (xs ++ b :: ys)) (hm : Only b m m') {x : Nat}
    (hx : x ∈ xs ++ ys) : SameInfo m m' x := by
  apply hm.sameInfo
  exact h.info_apart (mem_insert.mpr (.inr hx)) (mem_insert.mpr (.inl rfl)) (h.ne_of_mem hx)

/-! ### Merging -/

/-- One turn of the inner loop. -/
theorem glueStep (h : HeapInv A m live (xs ++ b :: c :: ys)) (hb : Ulib.full m b = 0)
    (hc : Ulib.full m c = 0) :
    HeapInv A (setSize m b (BitVec.ofNat 24 (blockSize m b + blockSize m c))) live
      (xs ++ b :: ys) := by
  obtain ⟨-, -, hrest⟩ := h.tiles.split_cons xs
  cases hrest with
  | cons hlt htail =>
    have hmemb : b ∈ xs ++ b :: nextBlock m b :: ys := mem_insert.mpr (.inl rfl)
    have hmemc : nextBlock m b ∈ xs ++ b :: nextBlock m b :: ys := by simp
    have hlo := h.tiles.lo b hmemb
    have hhi := (h.tiles.hi _ hmemc).2
    have hsmall := A.small
    have hnext : nextBlock m (nextBlock m b) =
        b + 4 * (blockSize m b + blockSize m (nextBlock m b)) := by
      rw [nextBlock, nextBlock]
      omega
    have hsize : blockSize (setSize m b (BitVec.ofNat 24
        (blockSize m b + blockSize m (nextBlock m b)))) b =
        blockSize m b + blockSize m (nextBlock m b) := by
      rw [blockSize_setSize, BitVec.toNat_ofNat]
      exact Nat.mod_eq_of_lt (by omega)
    have hsame : ∀ x ∈ xs ++ nextBlock m b :: ys, SameInfo m (setSize m b (BitVec.ofNat 24
        (blockSize m b + blockSize m (nextBlock m b)))) x :=
      fun x hx => h.sameInfo_of_only only_setSize hx
    have hsame' : ∀ x ∈ xs ++ ys, SameInfo m (setSize m b (BitVec.ofNat 24
        (blockSize m b + blockSize m (nextBlock m b)))) x :=
      fun x hx => hsame x (mem_insert.mpr (.inr hx))
    have hmem : ∀ x ∈ xs ++ ys, x ∈ xs ++ b :: nextBlock m b :: ys :=
      fun x hx => mem_insert.mpr (.inr (mem_insert.mpr (.inr hx)))
    constructor
    · apply h.tiles.glue xs
      · rw [nextBlock, hsize, hnext]
      · exact fun x hx => (hsame' x hx).next
    · intro x hx
      rcases mem_insert.mp hx with rfl | hx
      · rw [hsize, Nat.mul_add]
        exact Nat.dvd_add (h.lines _ hmemb) (h.lines _ hmemc)
      · rw [(hsame' x hx).size]
        exact h.lines x (hmem x hx)
    · intro x hx
      rcases mem_insert.mp hx with rfl | hx
      · rw [magic_setSize]
        exact h.magic _ hmemb
      · rw [(hsame' x hx).magic]
        exact h.magic x (hmem x hx)
    · intro x hx
      rcases mem_insert.mp hx with rfl | hx
      · rw [full_setSize]
        exact h.full _ hmemb
      · rw [(hsame' x hx).full]
        exact h.full x (hmem x hx)
    · intro p n hp
      obtain ⟨x, hx, rfl, hroom⟩ := h.room p n hp
      have hx1 : Ulib.full m x = 1 := (h.full x hx).mpr (by simp [hp])
      rcases mem_insert.mp hx with rfl | hx
      · rw [hb] at hx1
        exact absurd hx1 (by decide)
      · rcases mem_insert.mp hx with rfl | hx
        · rw [hc] at hx1
          exact absurd hx1 (by decide)
        · refine ⟨x, mem_insert.mpr (.inr hx), rfl, ?_⟩
          rwa [(hsame' x hx).size]

/-- The inner loop stops, and the blocks it reached have become one. -/
theorem glue_spec : ∀ (ys : List Nat) (m : Mem) (fuel : Nat), ys.length < fuel →
    HeapInv A m live (xs ++ b :: ys) → Ulib.full m b = 0 →
    ∃ m' ys', glue A.heap b fuel m = some m' ∧ HeapInv A m' live (xs ++ b :: ys') ∧
      Only b m m' ∧ Ulib.full m' b = 0 ∧ Parted A m' b ∧ ys'.length ≤ ys.length := by
  intro ys
  induction ys with
  | nil =>
    intro m fuel hfuel h hb
    obtain ⟨fuel, rfl⟩ := Nat.exists_eq_succ_of_ne_zero (by omega : fuel ≠ 0)
    have hptr := h.ptrAdd_eq (b := b) (by simp)
    obtain ⟨-, -, hrest⟩ := h.tiles.split_cons xs
    have hend : nextBlock m b = A.end_ := hrest.eq_of_nil
    refine ⟨m, [], ?_, h, fun _ _ => rfl, hb, fun _ => .inl hend, Nat.le_refl _⟩
    unfold glue
    rw [hptr, if_neg fun hc => hc.1 hend]
  | cons c ys ih =>
    intro m fuel hfuel h hb
    rw [List.length_cons] at hfuel
    obtain ⟨fuel, rfl⟩ := Nat.exists_eq_succ_of_ne_zero (by omega : fuel ≠ 0)
    have hptr := h.ptrAdd_eq (b := b) (by simp)
    obtain ⟨-, -, hrest⟩ := h.tiles.split_cons xs
    have hc : nextBlock m b = c := hrest.eq_head
    have hcend : c ≠ A.heap.end_ := by
      have hhi := h.tiles.hi c (by simp)
      rw [Area.heap_end]
      omega
    unfold glue
    rw [hptr, hc]
    by_cases hfree : Ulib.full m c = 0
    · rw [if_pos ⟨hcend, hfree⟩]
      obtain ⟨m', ys', heq, hinv, honly, hb', hparted, hlen⟩ :=
        ih _ fuel (by omega) (h.glueStep hb hfree) (by rwa [full_setSize])
      refine ⟨m', ys', heq, hinv, only_setSize.trans honly, hb', hparted, ?_⟩
      rw [List.length_cons]
      omega
    · rw [if_neg fun hand => hfree hand.2]
      refine ⟨m, c :: ys, rfl, h, fun _ _ => rfl, hb, fun _ => .inr ?_, Nat.le_refl _⟩
      rwa [hc]

/-- A block that was parted stays so when the size of another one changes. -/
theorem parted_only (h : HeapInv A m live bs) (hb : b ∈ bs) (hm : Only b m m')
    (hfull : Ulib.full m' b = Ulib.full m b) (hc : c ∈ bs) (hcb : c ≠ b)
    (hparted : Parted A m c) : Parted A m' c := by
  have hsame : ∀ x ∈ bs, x ≠ b → SameInfo m m' x :=
    fun x hx hne => hm.sameInfo (h.info_apart hx hb hne)
  intro hfree
  rw [(hsame c hc hcb).full] at hfree
  rw [(hsame c hc hcb).next]
  rcases hparted hfree with hend | hnext
  · exact .inl hend
  · rcases h.tiles.next_mem c hc with hend | hmem
    · exact .inl hend
    · refine .inr ?_
      by_cases hnb : nextBlock m c = b
      · rwa [hnb, hfull, ← hnb]
      · rwa [(hsame _ hmem hnb).full]

theorem mergeBlock_spec (h : HeapInv A m live (xs ++ b :: ys)) :
    ∃ m' ys', mergeBlock A.heap b m = some m' ∧ HeapInv A m' live (xs ++ b :: ys') ∧
      Keeps live m m' ∧ (∀ x ∈ xs, Parted A m x → Parted A m' x) ∧ Parted A m' b ∧
      ys'.length ≤ ys.length := by
  have hmem : b ∈ xs ++ b :: ys := mem_insert.mpr (.inl rfl)
  unfold mergeBlock
  by_cases hfree : Ulib.full m b = 0
  · have hlen := h.length_le
    rw [List.length_append, List.length_cons] at hlen
    obtain ⟨m', ys', heq, hinv, honly, hb, hparted, hle⟩ :=
      glue_spec ys m (A.heap.words + 1) (by omega) h hfree
    rw [if_pos hfree]
    refine ⟨m', ys', heq, hinv, h.keeps_only hmem ((h.full_eq_zero hmem).mp hfree) honly, ?_,
      hparted, hle⟩
    intro x hx
    exact h.parted_only hmem honly (hb.trans hfree.symm)
      (mem_insert.mpr (.inr (List.mem_append_left _ hx)))
      (h.ne_of_mem (List.mem_append_left _ hx))
  · rw [if_neg hfree]
    exact ⟨m, ys, rfl, h, keeps_refl live m, fun _ _ hx => hx, fun h0 => absurd h0 hfree,
      Nat.le_refl _⟩

/-- `merge` stops, keeps the tiling, writes free blocks only, and leaves no two of them
side by side. -/
theorem merge_spec : ∀ (fuel : Nat) (xs ys : List Nat) (m : Mem) (ptr : Nat), ys.length < fuel →
    HeapInv A m live (xs ++ ys) → Tiles (nextBlock m) ptr ys A.end_ →
    (∀ x ∈ xs, Parted A m x) →
    ∃ m' bs, merge A.heap fuel ptr m = some m' ∧ HeapInv A m' live bs ∧ Keeps live m m' ∧
      ∀ b ∈ bs, Parted A m' b := by
  intro fuel
  induction fuel with
  | zero => exact fun xs ys m ptr hfuel => absurd hfuel (Nat.not_lt_zero _)
  | succ fuel ih =>
    intro xs ys m ptr hfuel h htiles hparted
    unfold merge
    cases htiles with
    | nil =>
      rw [List.append_nil] at h
      exact ⟨m, xs, by rw [if_pos (by rfl)], h, keeps_refl live m, hparted⟩
    | @cons _ _ ys hlt hrest =>
      have hmem : ptr ∈ xs ++ ptr :: ys := mem_insert.mpr (.inl rfl)
      have hend : ptr ≠ A.heap.end_ := by
        have hhi := h.tiles.hi ptr hmem
        rw [Area.heap_end]
        omega
      rw [List.length_cons] at hfuel
      obtain ⟨m₁, ys₁, heq, hinv, hkeeps, hbefore, hptr₁, hle⟩ := h.mergeBlock_spec
      obtain ⟨-, -, hrest₁⟩ := hinv.tiles.split_cons xs
      have hsplit : xs ++ ptr :: ys₁ = (xs ++ [ptr]) ++ ys₁ := by simp
      have hptr := hinv.ptrAdd_eq (b := ptr) (by simp)
      rw [hsplit] at hinv
      have hparted₁ : ∀ x ∈ xs ++ [ptr], Parted A m₁ x := by
        intro x hx
        rcases List.mem_append.mp hx with hx | hx
        · exact hbefore x hx (hparted x hx)
        · rwa [List.mem_singleton.mp hx]
      obtain ⟨m', bs, heq', hinv', hkeeps', hall⟩ :=
        ih (xs ++ [ptr]) ys₁ m₁ (nextBlock m₁ ptr) (by omega) hinv hrest₁ hparted₁
      refine ⟨m', bs, ?_, hinv', h.keeps_trans hkeeps hkeeps', hall⟩
      rw [if_neg hend, heq, Option.bind_eq_bind, Option.bind_some, hptr]
      exact heq'

/-! ### Searching -/

/-- The search stops at a free block that is long enough, or at the end. -/
theorem scan_spec (h : HeapInv A m live bs) (size : Nat) : ∀ (ys : List Nat) (new fuel : Nat),
    ys.length < fuel → (∀ y ∈ ys, y ∈ bs) → Tiles (nextBlock m) new ys A.end_ →
    ∃ r, scan A.heap m size fuel new = some r ∧
      ((r = A.end_ ∧ ∀ y ∈ ys, Ulib.full m y = 1 ∨ blockSize m y < size) ∨
        (r ∈ bs ∧ Ulib.full m r = 0 ∧ size ≤ blockSize m r)) := by
  intro ys
  induction ys with
  | nil =>
    intro new fuel hfuel _ htiles
    obtain ⟨fuel, rfl⟩ := Nat.exists_eq_succ_of_ne_zero (by omega : fuel ≠ 0)
    have hnew := htiles.eq_of_nil
    refine ⟨new, ?_, .inl ⟨hnew, fun y hy => absurd hy List.not_mem_nil⟩⟩
    unfold scan
    rw [if_neg fun hc => Nat.ne_of_lt hc.1 hnew]
  | cons y ys ih =>
    intro new fuel hfuel hsub htiles
    rw [List.length_cons] at hfuel
    obtain ⟨fuel, rfl⟩ := Nat.exists_eq_succ_of_ne_zero (by omega : fuel ≠ 0)
    have hy : y ∈ bs := hsub y List.mem_cons_self
    cases htiles with
    | cons hlt hrest =>
      have hend : y < A.heap.end_ := Nat.lt_of_lt_of_le hlt (h.tiles.hi y hy).2
      unfold scan
      by_cases hskip : Ulib.full m y = 1 ∨ blockSize m y < size
      · rw [if_pos ⟨hend, hskip⟩, h.ptrAdd_eq hy]
        obtain ⟨r, heq, hr⟩ :=
          ih _ fuel (by omega) (fun x hx => hsub x (List.mem_cons_of_mem _ hx)) hrest
        refine ⟨r, heq, hr.imp_left fun hnone => ⟨hnone.1, fun x hx => ?_⟩⟩
        rcases List.mem_cons.mp hx with rfl | hx
        · exact hskip
        · exact hnone.2 x hx
      · rw [if_neg fun hc => hskip hc.2]
        rw [not_or, Nat.not_lt] at hskip
        refine ⟨y, rfl, .inr ⟨hy, ?_, hskip.2⟩⟩
        exact (BitVec.eq_zero_or_eq_one (Ulib.full m y)).resolve_right hskip.1

/-! ### Taking and giving back -/

/-- The block at `b` gets a new owner, or none. -/
theorem relabel {r : Option Nat} (h : HeapInv A m live bs) (hb : b ∈ bs) (honly : Only b m m')
    (hsize : blockSize m' b = blockSize m b) (hmagic : Ulib.magic m' b = Ulib.magic m b)
    (hfull : Ulib.full m' b = 1 ↔ r ≠ none)
    (hroom : ∀ n, r = some n → n + 4 ≤ 4 * blockSize m b) :
    HeapInv A m' (Function.update live (b + 4) r) bs := by
  have hsame : ∀ x ∈ bs, x ≠ b → SameInfo m m' x :=
    fun x hx hne => honly.sameInfo (h.info_apart hx hb hne)
  have hsizes : ∀ x ∈ bs, blockSize m' x = blockSize m x := by
    intro x hx
    by_cases hxb : x = b
    · rw [hxb, hsize]
    · exact (hsame x hx hxb).size
  constructor
  · apply h.tiles.congr
    intro x hx
    rw [nextBlock, nextBlock, hsizes x hx]
  · intro x hx
    rw [hsizes x hx]
    exact h.lines x hx
  · intro x hx
    by_cases hxb : x = b
    · subst hxb
      rw [hmagic]
      exact h.magic x hx
    · rw [(hsame x hx hxb).magic]
      exact h.magic x hx
  · intro x hx
    by_cases hxb : x = b
    · subst hxb
      rwa [Function.update_self]
    · rw [(hsame x hx hxb).full, Function.update_of_ne (by omega)]
      exact h.full x hx
  · intro p n hp
    by_cases hpb : p = b + 4
    · subst hpb
      rw [Function.update_self] at hp
      refine ⟨b, hb, rfl, ?_⟩
      rw [hsize]
      exact hroom n hp
    · rw [Function.update_of_ne hpb] at hp
      obtain ⟨x, hx, rfl, hle⟩ := h.room p n hp
      refine ⟨x, hx, rfl, ?_⟩
      rwa [hsizes x hx]

/-- The free block at `b` is cut at `c`, and the part before `c` is taken. -/
theorem cutStep (h : HeapInv A m live (xs ++ b :: ys)) (hbc : b < c) (hcn : c < nextBlock m b)
    (hdvd : A.line ∣ c - b) (hfree : live (b + 4) = none)
    (hbf : Ulib.full m' b = 1) (hbm : Ulib.magic m' b = magicHeap) (hbn : nextBlock m' b = c)
    (hcf : Ulib.full m' c = 0) (hcm : Ulib.magic m' c = magicHeap)
    (hcn' : nextBlock m' c = nextBlock m b)
    (hother : ∀ a, a < b ∨ nextBlock m b ≤ a → m' a = m a) (hroom : n + 4 ≤ c - b) :
    HeapInv A m' (Function.update live (b + 4) (some n)) (xs ++ b :: c :: ys) := by
  have hb : b ∈ xs ++ b :: ys := mem_insert.mpr (.inl rfl)
  have hmem : ∀ x ∈ xs ++ ys, x ∈ xs ++ b :: ys := fun x hx => mem_insert.mpr (.inr hx)
  have hsame : ∀ x ∈ xs ++ ys, SameInfo m m' x := by
    intro x hx
    have hne := h.ne_of_mem hx
    have hap := h.tiles.apart (hmem x hx) hb hne
    have hx4 := h.four_le (hmem x hx)
    exact sameInfo_of_bytes fun a hlo hhi => hother a (by omega)
  -- no pointer is allocated inside a free block
  have hcdead : live (c + 4) = none := by
    by_contra hlive
    have hap := h.tiles.apart hb (h.live_mem hlive) (by omega)
    have hlt := h.four_le (h.live_mem hlive)
    omega
  have hcsize : 4 * blockSize m' c = nextBlock m b - c := by
    rw [← hcn', nextBlock]
    omega
  have hbsize : 4 * blockSize m' b = c - b := by
    rw [← hbn, nextBlock]
    omega
  have hnext : nextBlock m b = b + 4 * blockSize m b := rfl
  have hmem' : ∀ x, x ∈ xs ++ b :: c :: ys → x = b ∨ x = c ∨ x ∈ xs ++ ys := by
    intro x hx
    exact (mem_insert.mp hx).imp_right mem_insert.mp
  constructor
  · apply h.tiles.cut xs hbc hcn hbn hcn'
    exact fun x hx => (hsame x hx).next
  · intro x hx
    rcases hmem' x hx with rfl | rfl | hx
    · rwa [hbsize]
    · have hrest : nextBlock m b - x = 4 * blockSize m b - (x - b) := by omega
      rw [hcsize, hrest]
      exact Nat.dvd_sub (h.lines b hb) hdvd
    · rw [(hsame x hx).size]
      exact h.lines x (hmem x hx)
  · intro x hx
    rcases hmem' x hx with rfl | rfl | hx
    · exact hbm
    · exact hcm
    · rw [(hsame x hx).magic]
      exact h.magic x (hmem x hx)
  · intro x hx
    rcases hmem' x hx with rfl | rfl | hx
    · rw [hbf, Function.update_self]
      simp
    · rw [hcf, Function.update_of_ne (by omega), hcdead]
      simp
    · have hne := h.ne_of_mem hx
      rw [(hsame x hx).full, Function.update_of_ne (by omega)]
      exact h.full x (hmem x hx)
  · intro p k hp
    by_cases hpb : p = b + 4
    · subst hpb
      rw [Function.update_self, Option.some.injEq] at hp
      exact ⟨b, mem_insert.mpr (.inl rfl), rfl, by omega⟩
    · rw [Function.update_of_ne hpb] at hp
      obtain ⟨x, hx, rfl, hle⟩ := h.room p k hp
      rcases mem_insert.mp hx with rfl | hx
      · exact absurd rfl hpb
      · refine ⟨x, mem_insert.mpr (.inr (mem_insert.mpr (.inr hx))), rfl, ?_⟩
        rwa [(hsame x hx).size]

end

end HeapInv

/-- A difference of addresses in a `size` field. -/
theorem ptrDiff_toNat {p q d : Nat} (hp : p = (q + d) % 2 ^ 32) (hd : d < 2 ^ 31) :
    ((ptrDiff p q).setWidth 24).toNat = d / 4 % 2 ^ 24 := by
  have hdiff : (BitVec.ofNat 32 p - BitVec.ofNat 32 q).toNat = d := by
    rw [BitVec.toNat_sub, BitVec.toNat_ofNat, BitVec.toNat_ofNat]
    omega
  have hmsb : (BitVec.ofNat 32 p - BitVec.ofNat 32 q).msb = false := by
    rw [BitVec.msb_eq_false_iff_two_mul_lt, hdiff]
    omega
  rw [ptrDiff, BitVec.toNat_setWidth, BitVec.toNat_sshiftRight_of_msb_false hmsb, hdiff,
    Nat.shiftRight_eq_div_pow]

namespace HeapInv

section
variable {A : Area} {m m' : Mem} {live : Live} {bs : List Nat} {b c p n size : Nat} {u : User}

/-- Below 0x80000000 a free block is taken whole, or cut where the request ends. -/
theorem take_spec (h : HeapInv A m live bs) (hb : b ∈ bs) (hfree : live (b + 4) = none)
    (hlow : A.end_ < 2 ^ 31) (hdvd : A.line ∣ 4 * size) (hn : n + 4 ≤ 4 * size)
    (hle : size ≤ blockSize m b) :
    ∃ bs', HeapInv A (take A.heap m b size) (Function.update live (b + 4) (some n)) bs' ∧
      Keeps live m (take A.heap m b size) := by
  have hlo := h.tiles.lo b hb
  have hhi := (h.tiles.hi b hb).2
  have hnext : nextBlock m b = b + 4 * blockSize m b := rfl
  have hsmall := A.small
  have hfour := A.four_le_line
  have haligned : A.line ∣ b + 4 * size := Nat.dvd_add (h.aligned hb) hdvd
  have hceil : ceil (ptrAdd b size) A.line = b + 4 * size := by
    rw [ptrAdd, Nat.mod_eq_of_lt (by omega)]
    exact A.ceil_low (h.nonempty hb) haligned (by omega)
  have hold : ptrAdd b (blockSize (setFull m b 1) b) = nextBlock m b := by
    rw [blockSize_setFull]
    exact h.ptrAdd_eq hb
  unfold take
  simp only [Area.heap_line, hceil, hold]
  by_cases hcut : b + 4 * size = nextBlock m b
  · rw [if_neg fun hne => hne hcut]
    refine ⟨bs, ?_, h.keeps_only hb hfree only_setFull⟩
    apply h.relabel hb only_setFull blockSize_setFull magic_setFull
    · rw [full_setFull]
      simp
    · rintro k hk
      rw [Option.some.injEq] at hk
      omega
  · rw [if_pos hcut]
    have hroom := A.add_line_le haligned
      (Nat.dvd_add (h.aligned hb) (h.lines b hb)) (by omega : b + 4 * size < nextBlock m b)
    rw [← hnext] at hroom
    -- the information of the new block, then that of the rest
    have hmb : ∃ m₁, m₁ = setMagic (setSize (setFull m b 1) b
        ((ptrDiff (b + 4 * size) b).setWidth 24)) b magicHeap := ⟨_, rfl⟩
    obtain ⟨m₁, hm₁⟩ := hmb
    have hmc : ∃ m₂, m₂ = setMagic (setFull (setSize m₁ (b + 4 * size)
        ((ptrDiff (nextBlock m b) (b + 4 * size)).setWidth 24)) (b + 4 * size) 0)
        (b + 4 * size) magicHeap := ⟨_, rfl⟩
    obtain ⟨m₂, hm₂⟩ := hmc
    have honly₁ : Only b m m₁ := by
      rw [hm₁]
      exact (only_setFull.trans only_setSize).trans only_setMagic
    have honly₂ : Only (b + 4 * size) m₁ m₂ := by
      rw [hm₂]
      exact (only_setSize.trans only_setFull).trans only_setMagic
    have hsame : SameInfo m₁ m₂ b := honly₂.sameInfo (by omega)
    have hother : ∀ a, a < b ∨ nextBlock m b ≤ a → m₂ a = m a := by
      intro a ha
      rw [honly₂ a (by omega), honly₁ a (by omega)]
    obtain ⟨xs, ys, rfl⟩ := List.append_of_mem hb
    rw [← hm₁, ← hm₂]
    refine ⟨xs ++ b :: (b + 4 * size) :: ys, ?_, h.keeps_within hb hfree hother⟩
    apply h.cutStep (by omega) (by omega) _ hfree
    · rw [hsame.full, hm₁]
      simp
    · rw [hsame.magic, hm₁]
      simp
    · rw [hsame.next, hm₁, nextBlock, blockSize_setMagic, blockSize_setSize,
        ptrDiff_toNat (d := 4 * size) (by omega) (by omega)]
      omega
    · rw [hm₂]
      simp
    · rw [hm₂]
      simp
    · rw [hm₂, nextBlock, blockSize_setMagic, blockSize_setFull, blockSize_setSize,
        ptrDiff_toNat (d := nextBlock m b - (b + 4 * size)) (by omega) (by omega)]
      omega
    · exact hother
    · omega
    · rw [Nat.add_sub_cancel_left]
      exact hdvd

/-- `try_malloc` finds no free block that is long enough, or takes one. -/
theorem tryMalloc_cases (h : HeapInv A m live bs) (size : Nat) :
    (tryMalloc A.heap m size = some (0, m) ∧
      ∀ b ∈ bs, Ulib.full m b = 1 ∨ blockSize m b < needed A.heap size) ∨
    ∃ r ∈ bs, Ulib.full m r = 0 ∧ needed A.heap size ≤ blockSize m r ∧
      tryMalloc A.heap m size = some (r + 4, take A.heap m r (needed A.heap size)) := by
  have hlen := h.length_le
  obtain ⟨r, hscan, hr⟩ := h.scan_spec (needed A.heap size) bs A.beg (A.heap.words + 1)
    (by omega) (fun _ hy => hy) h.tiles
  unfold tryMalloc
  simp only [Area.heap_beg, Option.bind_eq_bind, hscan, Option.bind_some]
  rcases hr with ⟨hr, hnone⟩ | ⟨hr, hfree, hle⟩
  · have hge : A.heap.end_ ≤ r := Nat.le_of_eq hr.symm
    rw [if_pos hge]
    exact .inl ⟨rfl, hnone⟩
  · have hhi := h.tiles.hi r hr
    have hend := A.end_lt
    have hfour := h.four_le hr
    have hptr : ptrAdd r 1 = r + 4 := by
      rw [ptrAdd]
      exact Nat.mod_eq_of_lt (by omega)
    have hlt : ¬ A.heap.end_ ≤ r := by
      rw [Area.heap_end]
      omega
    rw [if_neg hlt, hptr]
    exact .inr ⟨r, hr, hfree, hle, rfl⟩

/-- The heap after merging, with the allocated blocks as they were. -/
structure Merged (A : Area) (m : Mem) (live : Live) (m' : Mem) (bs' : List Nat) : Prop
    extends HeapInv A m' live bs' where
  keeps : Keeps live m m'
  parted : ∀ b ∈ bs', Parted A m' b

/-- `malloc` finds no block in the merged heap, or takes one of the heap or of the merged
heap. -/
theorem malloc_cases (h : HeapInv A u.mem live bs) (size : Nat) :
    (∃ u' bs', malloc A.heap size u = some (0, u') ∧ Merged A u.mem live u'.mem bs' ∧
      ∀ b ∈ bs', Ulib.full u'.mem b = 1 ∨ blockSize u'.mem b < needed A.heap size) ∨
    ∃ m' bs' r, HeapInv A m' live bs' ∧ Keeps live u.mem m' ∧ r ∈ bs' ∧ Ulib.full m' r = 0 ∧
      needed A.heap size ≤ blockSize m' r ∧ malloc A.heap size u =
        some (r + 4, { u with mem := take A.heap m' r (needed A.heap size) }) := by
  have hfound : ∀ r : Nat, ¬ r + 4 = 0 := fun r => by omega
  unfold malloc
  rcases h.tryMalloc_cases size with ⟨htry, -⟩ | ⟨r, hr, hfree, hle, htry⟩
  · have hlen := h.length_le
    obtain ⟨m', bs', hmerge, hinv, hkeeps, hparted⟩ :=
      merge_spec (A.heap.words + 1) [] bs u.mem A.beg (by omega) h h.tiles
        fun x hx => absurd hx List.not_mem_nil
    rcases hinv.tryMalloc_cases size with ⟨htry', hnone⟩ | ⟨r, hr, hfree, hle, htry'⟩
    · simp only [htry, htry', hmerge, if_true, Area.heap_beg, Option.bind_eq_bind,
        Option.bind_some]
      exact .inl ⟨_, bs', rfl, ⟨hinv, hkeeps, hparted⟩, hnone⟩
    · simp only [htry, htry', hmerge, if_true, Area.heap_beg, Option.bind_eq_bind,
        Option.bind_some, if_neg (hfound r)]
      exact .inr ⟨m', bs', r, hinv, hkeeps, hr, hfree, hle, rfl⟩
  · simp only [htry, Option.bind_eq_bind, Option.bind_some, if_neg (hfound r)]
    exact .inr ⟨u.mem, bs, r, h, keeps_refl live u.mem, hr, hfree, hle, rfl⟩

/-- What an allocation of `size` bytes did: nothing, or a new block for `p`. -/
def Allocated (A : Area) (live : Live) (size p : Nat) (m : Mem) : Prop :=
  (p = 0 ∧ ∃ bs, HeapInv A m live bs) ∨
    (p ≠ 0 ∧ live p = none ∧ ∃ bs, HeapInv A m (Function.update live p (some size)) bs)

/-- `malloc` returns, with a new block or without any. -/
theorem malloc_spec (h : HeapInv A u.mem live bs) (hlow : A.beg = A.end_ ∨ A.end_ < 2 ^ 31)
    (hsize : A.beg < A.end_ → size + 2 * A.line + 2 < 2 ^ 32) :
    ∃ p u', malloc A.heap size u = some (p, u') ∧ Allocated A live size p u'.mem ∧
      Keeps live u.mem u'.mem := by
  rcases h.malloc_cases size with ⟨u', bs', heq, hmerged, -⟩ |
    ⟨m', bs', r, hinv, hkeeps, hr, hfree, hle, heq⟩
  · exact ⟨0, u', heq, .inl ⟨rfl, bs', hmerged.toHeapInv⟩, hmerged.keeps⟩
  · have hne := hinv.nonempty hr
    have hdead := (hinv.full_eq_zero hr).mp hfree
    rcases A.needed_spec hne (hsize hne) with ⟨hdvd, hn⟩ | hbig
    · obtain ⟨bs₂, hinv₂, hkeeps₂⟩ := hinv.take_spec hr hdead (by omega) hdvd hn hle
      exact ⟨r + 4, _, heq, .inr ⟨by omega, hdead, bs₂, hinv₂⟩, h.keeps_trans hkeeps hkeeps₂⟩
    · -- no block has that many words
      have hlt24 := blockSize_lt (m := m') (p := r)
      omega

/-- `free` of an allocated pointer returns. -/
theorem free_spec (h : HeapInv A u.mem live bs) (hlive : live p ≠ none) :
    ∃ u', free p u = some u' ∧ HeapInv A u'.mem (Function.update live p none) bs ∧
      Keeps (Function.update live p none) u.mem u'.mem := by
  obtain ⟨n, hn⟩ := Option.ne_none_iff_exists'.mp hlive
  obtain ⟨b, hb, rfl, -⟩ := h.room p n hn
  have hhi := h.tiles.hi b hb
  have hend := A.end_lt
  have hfour := h.four_le hb
  have hinfo : (b + 4 + 2 ^ 32 - binfoSz) % 2 ^ 32 = b := by
    rw [binfoSz]
    omega
  have hfull : Ulib.full u.mem b = 1 := (h.full b hb).mpr hlive
  have hinv : HeapInv A (setFull u.mem b 0) (Function.update live (b + 4) none) bs := by
    apply h.relabel hb only_setFull blockSize_setFull magic_setFull
    · rw [full_setFull]
      simp
    · exact fun k hk => absurd hk (by simp)
  refine ⟨{ u with mem := setFull u.mem b 0 }, ?_, hinv, ?_⟩
  · unfold free
    rw [hinfo, if_neg]
    rw [h.magic b hb, hfull]
    simp
  · intro c hc a hlo hhi'
    by_cases hcb : c = b
    · rw [hcb, Function.update_self] at hc
      exact absurd rfl hc
    · rw [Function.update_of_ne (by omega)] at hc
      have hcmem := h.live_mem hc
      have hap := h.tiles.apart hcmem hb hcb
      exact only_setFull a (by omega)

/-- A write into the contents of allocated blocks leaves the informations alone. -/
theorem sameInfo_fill (h : HeapInv A m live bs)
    (hm : ∀ a, m' a ≠ m a → ∃ b, live (b + 4) ≠ none ∧ b + 4 ≤ a ∧ a < nextBlock m b) :
    ∀ x ∈ bs, SameInfo m m' x := by
  intro x hx
  apply sameInfo_of_bytes
  intro a hlo hhi
  by_contra hne
  obtain ⟨b, hb, hba, hab⟩ := hm a hne
  have hx4 := h.four_le hx
  have hxb : x ≠ b := by omega
  have hap := h.tiles.apart hx (h.live_mem hb) hxb
  omega

theorem fill (h : HeapInv A m live bs)
    (hm : ∀ a, m' a ≠ m a → ∃ b, live (b + 4) ≠ none ∧ b + 4 ≤ a ∧ a < nextBlock m b) :
    HeapInv A m' live bs := by
  have hsame := h.sameInfo_fill hm
  constructor
  · exact h.tiles.congr fun x hx => (hsame x hx).next
  · intro x hx
    rw [(hsame x hx).size]
    exact h.lines x hx
  · intro x hx
    rw [(hsame x hx).magic]
    exact h.magic x hx
  · intro x hx
    rw [(hsame x hx).full]
    exact h.full x hx
  · intro p n hp
    obtain ⟨b, hb, rfl, hle⟩ := h.room p n hp
    refine ⟨b, hb, rfl, ?_⟩
    rwa [(hsame b hb).size]

/-- The owners write into their blocks. -/
theorem store (h : HeapInv A m live bs)
    (hm : ∀ a, m' a ≠ m a → ∃ p n, live p = some n ∧ p ≤ a ∧ a < p + n) :
    HeapInv A m' live bs := by
  refine h.fill fun a hne => ?_
  obtain ⟨p, n, hp, hpa, han⟩ := hm a hne
  obtain ⟨b, hb, rfl, hle⟩ := h.room p n hp
  have hnext : nextBlock m b = b + 4 * blockSize m b := rfl
  exact ⟨b, by simp [hp], hpa, by omega⟩

end

end HeapInv

/-! ## Runs -/

/-- The heap `malloc_init` builds: one free block, if there is room for any. -/
theorem mallocInit_spec (A : Area) (u : User) :
    ∃ m, mallocInit A.line A.beg A.end_ u = some (A.heap, { u with mem := m }) ∧
      ∃ bs, HeapInv A m (fun _ => none) bs ∧
        (A.beg < A.end_ → full m A.beg = 0 ∧ blockSize m A.beg = (A.end_ - A.beg) / 4) := by
  have hbeg : floor A.beg A.line = A.beg :=
    floor_of_dvd A.line_max (Nat.lt_of_le_of_lt A.beg_le A.end_lt) A.beg_aligned
  have hend : floor A.end_ A.line = A.end_ := floor_of_dvd A.line_max A.end_lt A.end_aligned
  have hbrk : A.end_ ≠ 2 ^ 32 - 1 := by
    have hfour : 4 ∣ A.end_ := A.four_dvd_line.trans A.end_aligned
    omega
  have hle := A.beg_le
  have hlt := A.end_lt
  have hsmall := A.small
  have hsize : ((ptrDiff A.end_ A.beg).setWidth 24).toNat = (A.end_ - A.beg) / 4 := by
    rw [ptrDiff_toNat (d := A.end_ - A.beg) (by omega) (by omega)]
    omega
  unfold mallocInit
  rw [if_neg hbrk]
  simp only [hbeg, hend]
  refine ⟨_, rfl, ?_⟩
  rcases Nat.eq_or_lt_of_le hle with heq | hlt
  · refine ⟨[], ?_, fun hlt => absurd heq (Nat.ne_of_lt hlt)⟩
    constructor
    · rw [heq]
      exact .nil _
    · exact fun b hb => absurd hb List.not_mem_nil
    · exact fun b hb => absurd hb List.not_mem_nil
    · exact fun b hb => absurd hb List.not_mem_nil
    · exact fun p n hp => absurd hp (by simp)
  · have hdvd : A.line ∣ A.end_ - A.beg := Nat.dvd_sub A.end_aligned A.beg_aligned
    have hfour : 4 * ((A.end_ - A.beg) / 4) = A.end_ - A.beg :=
      Nat.mul_div_cancel' (A.four_dvd_line.trans hdvd)
    refine ⟨[A.beg], ?_, fun _ => ⟨by simp, by rw [blockSize_setSize, hsize]⟩⟩
    constructor
    · apply Tiles.cons
      · rw [nextBlock, blockSize_setSize, hsize]
        omega
      · have hnext : A.beg + 4 * ((A.end_ - A.beg) / 4) = A.end_ := by omega
        rw [nextBlock, blockSize_setSize, hsize, hnext]
        exact .nil _
    · intro b hb
      rw [List.mem_singleton] at hb
      rw [hb, blockSize_setSize, hsize, hfour]
      exact hdvd
    · intro b hb
      rw [List.mem_singleton] at hb
      rw [hb]
      simp
    · intro b hb
      rw [List.mem_singleton] at hb
      rw [hb]
      simp
    · exact fun p n hp => absurd hp (by simp)

/-- The states reached after `malloc_init`, with the allocated pointers and the
sizes they were asked with.  Between two calls the owners of the allocated blocks
write anything into them. -/
inductive HeapRun (A : Area) (u₀ : User) : User → Live → Prop where
  | init {u : User} : mallocInit A.line A.beg A.end_ u₀ = some (A.heap, u) →
      HeapRun A u₀ u fun _ => none
  | malloc {u u' : User} {live : Live} {size p : Nat} : HeapRun A u₀ u live →
      size ≤ 0x7FFFFF00 → malloc A.heap size u = some (p, u') →
      HeapRun A u₀ u' (if p = 0 then live else Function.update live p (some size))
  | free {u u' : User} {live : Live} {p : Nat} : HeapRun A u₀ u live →
      live p ≠ none → free p u = some u' → HeapRun A u₀ u' (Function.update live p none)
  | store {u u' : User} {live : Live} : HeapRun A u₀ u live →
      (∀ a, u'.mem a ≠ u.mem a → ∃ p n, live p = some n ∧ p ≤ a ∧ a < p + n) →
      HeapRun A u₀ u' live

/-- What the heap promises in a state with the given allocated pointers. -/
structure HeapSafe (A : Area) (u : User) (live : Live) : Prop where
  tiled : ∃ bs, Tiles (nextBlock u.mem) A.beg bs A.end_ ∧
    (∀ b ∈ bs, 0 < blockSize u.mem b ∧ A.line ∣ 4 * blockSize u.mem b ∧
      magic u.mem b = magicHeap) ∧
    ∀ p n, live p = some n → ∃ b ∈ bs, p = b + 4 ∧ full u.mem b = 1 ∧
      p + n ≤ nextBlock u.mem b
  apart : ∀ b c, live (b + 4) ≠ none → live (c + 4) ≠ none → b ≠ c →
    nextBlock u.mem b ≤ c ∨ nextBlock u.mem c ≤ b
  malloc_ok : ∀ size, size ≤ 0x7FFFFF00 →
    ∃ p u', malloc A.heap size u = some (p, u') ∧ (p ≠ 0 → live p = none) ∧
      ∀ b, live (b + 4) ≠ none → ∀ a, b + 4 ≤ a → a < nextBlock u.mem b → u'.mem a = u.mem a
  free_ok : ∀ p, live p ≠ none → ∃ u', free p u = some u' ∧
    ∀ b, b + 4 ≠ p → live (b + 4) ≠ none → ∀ a, b + 4 ≤ a → a < nextBlock u.mem b →
      u'.mem a = u.mem a

section
variable {A : Area} {u u₀ : User} {live : Live} {bs : List Nat}

/-- The invariant holds along every run of a heap below 0x80000000. -/
theorem HeapRun.inv (hlow : A.beg = A.end_ ∨ A.end_ < 2 ^ 31) (h : HeapRun A u₀ u live) :
    ∃ bs, HeapInv A u.mem live bs := by
  induction h with
  | init hinit =>
    obtain ⟨m, heq, bs, hinv, -⟩ := mallocInit_spec A u₀
    rw [heq, Option.some.injEq, Prod.mk.injEq] at hinit
    exact ⟨bs, hinit.2 ▸ hinv⟩
  | malloc _ hsize hm ih =>
    obtain ⟨bs, hinv⟩ := ih
    obtain ⟨p, u', heq, halloc, -⟩ := hinv.malloc_spec hlow fun hne => A.request_lt hne hsize
    rw [heq, Option.some.injEq, Prod.mk.injEq] at hm
    obtain ⟨rfl, rfl⟩ := hm
    rcases halloc with ⟨hp, hinv'⟩ | ⟨hp, -, hinv'⟩
    · rwa [if_pos hp]
    · rwa [if_neg hp]
  | free _ hlive hf ih =>
    obtain ⟨bs, hinv⟩ := ih
    obtain ⟨u', heq, hinv', -⟩ := hinv.free_spec hlive
    rw [heq, Option.some.injEq] at hf
    exact ⟨bs, hf ▸ hinv'⟩
  | store _ hm ih =>
    obtain ⟨bs, hinv⟩ := ih
    exact ⟨bs, hinv.store hm⟩

theorem HeapInv.safe (hlow : A.beg = A.end_ ∨ A.end_ < 2 ^ 31)
    (h : HeapInv A u.mem live bs) : HeapSafe A u live := by
  constructor
  · refine ⟨bs, h.tiles, ?_, ?_⟩
    · intro b hb
      have hsize := h.line_le_size hb
      have hpos := A.line_pos
      exact ⟨by omega, h.lines b hb, h.magic b hb⟩
    · intro p n hp
      obtain ⟨b, hb, rfl, hle⟩ := h.room p n hp
      refine ⟨b, hb, rfl, (h.full b hb).mpr (by simp [hp]), ?_⟩
      rw [nextBlock]
      omega
  · intro b c hb hc hne
    exact h.tiles.apart (h.live_mem hb) (h.live_mem hc) hne
  · intro size hsize
    obtain ⟨p, u', heq, halloc, hkeeps⟩ := h.malloc_spec hlow fun hne => A.request_lt hne hsize
    refine ⟨p, u', heq, ?_, fun b hb a hlo hhi => hkeeps b hb a (by omega) hhi⟩
    rcases halloc with ⟨hp, -⟩ | ⟨-, hdead, -⟩
    · exact fun hne => absurd hp hne
    · exact fun _ => hdead
  · intro p hp
    obtain ⟨u', heq, -, hkeeps⟩ := h.free_spec hp
    refine ⟨u', heq, fun b hbp hb a hlo hhi => hkeeps b ?_ a (by omega) hhi⟩
    rwa [Function.update_of_ne hbp]

/-- Where `LINE_CEIL` is one line too high, the block that takes all of the heap is
made one line longer than the heap. -/
theorem take_high {m : Mem} (hne : A.beg < A.end_) (hhigh : 2 ^ 31 ≤ A.end_)
    (hblock : blockSize m A.beg = (A.end_ - A.beg) / 4) :
    blockSize (take A.heap m A.beg ((A.end_ - A.beg) / 4)) A.beg =
      (A.end_ - A.beg + A.line) / 4 % 2 ^ 24 := by
  have hlt := A.end_lt
  have hsmall := A.small
  have hfour := A.four_le_line
  have hline := A.line_le hne
  have hroom := A.add_line_le A.beg_aligned A.end_aligned hne
  have hbeg4 : 4 ∣ A.beg := A.four_dvd_line.trans A.beg_aligned
  have hend4 : 4 ∣ A.end_ := A.four_dvd_line.trans A.end_aligned
  have hline4 := A.four_dvd_line
  have hptr : ptrAdd A.beg ((A.end_ - A.beg) / 4) = A.end_ := by
    rw [ptrAdd]
    omega
  have hceil := A.ceil_high hne A.end_aligned hhigh hlt
  obtain ⟨newnext, hnew⟩ : ∃ newnext, newnext = (A.end_ + A.line) % 2 ^ 32 := ⟨_, rfl⟩
  rw [← hnew] at hceil
  unfold take
  simp only [Area.heap_line, blockSize_setFull, hblock, hptr, hceil]
  rw [if_pos (by omega)]
  -- the writes at `newnext` are outside the first word of the heap
  have hsame : ∀ (x : Mem) (v : BitVec 24), SameInfo x (setMagic (setFull (setSize x newnext v)
      newnext 0) newnext magicHeap) A.beg := by
    intro x v
    apply ((only_setSize.trans only_setFull).trans only_setMagic).sameInfo
    omega
  rw [(hsame _ _).size, blockSize_setMagic, blockSize_setSize]
  exact ptrDiff_toNat (by omega) (by omega)

/-- The first request for all of the heap. -/
theorem malloc_high (hne : A.beg < A.end_) (hfree : full u.mem A.beg = 0)
    (hblock : blockSize u.mem A.beg = (A.end_ - A.beg) / 4) :
    malloc A.heap (A.end_ - A.beg - 4) u = some (A.beg + 4,
      { u with mem := take A.heap u.mem A.beg ((A.end_ - A.beg) / 4) }) := by
  have hlt := A.end_lt
  have hsmall := A.small
  have hfour := A.four_le_line
  have hline := A.line_le hne
  have hdvd : A.line ∣ A.end_ - A.beg := Nat.dvd_sub A.end_aligned A.beg_aligned
  have hroom := A.add_line_le A.beg_aligned A.end_aligned hne
  -- the words of the request are those of the heap
  have hneed : needed A.heap (A.end_ - A.beg - 4) = (A.end_ - A.beg) / 4 := by
    obtain ⟨c, hc⟩ := hdvd
    have hsum : A.end_ - A.beg - 4 + binfoSz = A.line * c := by
      rw [binfoSz]
      omega
    rw [needed, hsum, Area.heap_line, ceil_eq A.line_pos, sdivMul_of_lt (by omega) (by omega),
      A.line_div, hc]
  have hscan : scan A.heap u.mem ((A.end_ - A.beg) / 4) (A.heap.words + 1) A.beg =
      some A.beg := by
    unfold scan
    rw [if_neg]
    rintro ⟨-, hfull | hshort⟩
    · rw [hfree] at hfull
      exact absurd hfull (by decide)
    · omega
  have hptr : ptrAdd A.beg 1 = A.beg + 4 := by
    rw [ptrAdd]
    omega
  have hge : ¬ A.heap.end_ ≤ A.beg := Nat.not_le.mpr hne
  have htry : tryMalloc A.heap u.mem (A.end_ - A.beg - 4) =
      some (A.beg + 4, take A.heap u.mem A.beg ((A.end_ - A.beg) / 4)) := by
    unfold tryMalloc
    simp only [Area.heap_beg, hneed, hscan, Option.bind_eq_bind, Option.bind_some, hptr]
    rw [if_neg hge]
  unfold malloc
  simp only [htry, Option.bind_eq_bind, Option.bind_some]
  rw [if_neg (by omega)]

/-- From 0x80000000 on, the first request for all of the heap breaks the tiling. -/
theorem heapRun_untiled (hne : A.beg < A.end_) (hhigh : 2 ^ 31 ≤ A.end_) (u₀ : User) :
    ∃ u live, HeapRun A u₀ u live ∧ ∀ bs, ¬ Tiles (nextBlock u.mem) A.beg bs A.end_ := by
  obtain ⟨m, hinit, bs, -, hblock⟩ := mallocInit_spec A u₀
  obtain ⟨hfree, hblock⟩ := hblock hne
  have hsmall := A.small
  have hrun := (HeapRun.init hinit).malloc (by omega)
    (malloc_high (u := { u₀ with mem := m }) hne hfree hblock)
  refine ⟨_, _, hrun, fun bs htiles => ?_⟩
  cases bs with
  | nil => exact absurd htiles.eq_of_nil (Nat.ne_of_lt hne)
  | cons b bs =>
    have hb := htiles.eq_head
    subst hb
    obtain ⟨hpos, hhi⟩ := htiles.hi _ List.mem_cons_self
    have hsize := take_high hne hhigh hblock
    have hdvd : 4 ∣ A.end_ - A.beg + A.line :=
      Nat.dvd_add (A.four_dvd_line.trans (Nat.dvd_sub A.end_aligned A.beg_aligned))
        A.four_dvd_line
    have hlinepos := A.line_pos
    have hline := A.line_le hne
    simp only [nextBlock, hsize] at hhi hpos
    -- a size that fits in 24 bits leads past the end, the one that does not is 0
    have hfits := A.longer_le hne
    omega

theorem heapRun_high (hne : A.beg < A.end_) (hhigh : 2 ^ 31 ≤ A.end_) (u₀ : User) :
    ∃ u live, HeapRun A u₀ u live ∧ ¬ HeapSafe A u live := by
  obtain ⟨u, live, hrun, huntiled⟩ := heapRun_untiled hne hhigh u₀
  refine ⟨u, live, hrun, fun hsafe => ?_⟩
  obtain ⟨bs, htiles, -⟩ := hsafe.tiled
  exact huntiled bs htiles

/-- The user heap keeps its promises in every run if and only if it is empty or ends
below 0x80000000. -/
theorem heapRun_safe_iff (A : Area) :
    (∀ u₀ u live, HeapRun A u₀ u live → HeapSafe A u live) ↔
      (A.beg = A.end_ ∨ A.end_ < 2 ^ 31) := by
  constructor
  · intro hall
    rcases Nat.eq_or_lt_of_le A.beg_le with heq | hne
    · exact .inl heq
    · rcases Nat.lt_or_ge A.end_ (2 ^ 31) with hlow | hhigh
      · exact .inr hlow
      · obtain ⟨u, live, hrun, hunsafe⟩ := heapRun_high hne hhigh { mem := fun _ => 0, errno := 0 }
        exact absurd (hall _ u live hrun) hunsafe
  · intro hlow u₀ u live hrun
    obtain ⟨bs, hinv⟩ := hrun.inv hlow
    exact hinv.safe hlow

end

/-- The user heap of four pages where `qemu-virt-riscv` has the user's data. -/
def qemuHeap : Area where
  lineShift := 6
  beg := 0x81110000
  end_ := 0x81114000
  line_min := by decide
  line_max := by decide
  beg_aligned := by decide
  end_aligned := by decide
  beg_le := by decide
  end_lt := by decide
  small := by decide

/-- There `malloc (0x3FFC)` right after `malloc_init` breaks the tiling. -/
theorem malloc_past_heap_end :
    ¬ ∀ (u₀ u : User) (live : Live), HeapRun qemuHeap u₀ u live → HeapSafe qemuHeap u live := by
  intro hall
  obtain ⟨u, live, hrun, hunsafe⟩ :=
    heapRun_high (A := qemuHeap) (by decide) (by decide) { mem := fun _ => 0, errno := 0 }
  exact hunsafe (hall _ u live hrun)

end Ko6.Ulib
