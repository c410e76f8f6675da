import Ko6.Ulib.MemoryComplete
import Ko6.Kernel.SlabExhaust

set_option autoImplicit false

/-!
# Ulib: the sizes of `malloc`, `calloc` and `kcalloc`

The header and the rounding are added to a size in 32 bits, and `CEIL` takes the sum for an
`int`.  A size that is negative so is rounded to more than any heap has, except for the
last two lines before 2³²: they are rounded to nothing, or to one line.  `calloc` and
`kcalloc` take the product modulo 2³², and the loop of `calloc` clears 2³⁰ words when there
is nothing to clear.
-/

namespace Ko6.Ulib

open Ko6.Lib

/-! ## What the calls promise -/

/-- In the memory `m`, `p` has `n` bytes of its own: it is the content of a full block of the
heap, apart from the blocks that were allocated before. -/
structure Usable (A : Area) (m : Mem) (live : Live) (p n : Nat) : Prop where
  full : full m (p - 4) = 1
  lo : A.beg + 4 ≤ p
  hi : nextBlock m (p - 4) ≤ A.end_
  room : p + n ≤ nextBlock m (p - 4)
  apart : ∀ b, live (b + 4) ≠ none → nextBlock m b ≤ p - 4 ∨ nextBlock m (p - 4) ≤ b

/-- `malloc` fails or returns a block of `size` bytes. -/
def MallocFits (A : Area) (u : User) (live : Live) (size : Nat) : Prop :=
  ∃ p u', malloc A.heap size u = some (p, u') ∧ (p = 0 ∨ Usable A u'.mem live p size)

/-- `calloc` fails or returns a block of `n * size` bytes that are 0, and has written no byte
outside the block since its call of `malloc`. -/
def CallocFits (A : Area) (u : User) (live : Live) (n size : Nat) : Prop :=
  ∃ p u₁ u', malloc A.heap (n * size % 2 ^ 32) u = some (p, u₁) ∧
    calloc A.heap n size u = some (p, u') ∧
    (p = 0 ∨ Usable A u'.mem live p (n * size) ∧
      (∀ a, p ≤ a → a < p + n * size → u'.mem a = 0) ∧
      ∀ a, a < p ∨ nextBlock u'.mem (p - 4) ≤ a → u'.mem a = u₁.mem a)

/-- `kcalloc` panics or returns an object of `n * size` bytes that are 0. -/
def KcallocFits (L : Kernel.Layout) (s : Kernel.Kmem) (n size : Nat) : Prop :=
  ∀ x s', Kernel.kcalloc L n size s = some (x, s') → x ≠ 0 ∧ L.kmb ≤ x ∧
    x + n * size ≤ L.kme ∧ n * size ≤ Kernel.objectSize L s' x ∧
    ∀ a, x ≤ a → a < x + n * size → s'.mem a = 0

/-! ## When they keep it -/

/-- The size does not come to the last two lines before 2³². -/
def Area.Fits (A : Area) (size : Nat) : Prop := size + 2 * A.line + 2 < 2 ^ 32

instance (A : Area) (size : Nat) : Decidable (A.Fits size) :=
  inferInstanceAs (Decidable (_ < _))

/-- The bytes that a free block must have for the request; any free block will do for a size
that has been rounded to nothing. -/
def Area.sought (A : Area) (size : Nat) : Nat :=
  if A.Fits size then A.lineCeil (size + 4) else 1

/-- There are `k` bytes side by side that no allocated block has. -/
def Room (A : Area) (m : Mem) (live : Live) (k : Nat) : Prop :=
  ∃ s, A.beg ≤ s ∧ s + k ≤ A.end_ ∧ ∀ a, s ≤ a → a < s + k → ¬ Taken m live a

/-- The sizes for which `malloc` keeps its promise. -/
def MallocCond (A : Area) (u : User) (live : Live) (size : Nat) : Prop :=
  A.Fits size ∨ ¬ Room A u.mem live 1

/-- The arguments for which `calloc` keeps its promise. -/
def CallocCond (A : Area) (u : User) (live : Live) (n size : Nat) : Prop :=
  0 < n * size ∧ A.Fits (n * size) ∨ ¬ Room A u.mem live (A.sought (n * size % 2 ^ 32))

/-- The arguments for which `kcalloc` keeps its promise. -/
def KcallocCond (L : Kernel.Layout) (s : Kernel.Kmem) (n size : Nat) : Prop :=
  ¬ Kernel.Unseen L s (n * size % 2 ^ 32) ∧
    (n * size < 2 ^ 32 ∨ Kernel.pageSize < n * size % 2 ^ 32 ∨
      ¬ Kernel.PageAvailable L s (n * size % 2 ^ 32))

/-! ## `malloc` -/

section
variable {A : Area} {m m' : Mem} {u u₀ u' : User} {live : Live} {bs bs' : List Nat}
  {a b p n k size : Nat}

/-- The last sizes before 2³² are rounded to one line at most. -/
theorem Area.needed_wrap (A : Area) (h : A.beg < A.end_) (hlt : size < 2 ^ 32)
    (hsize : ¬ A.Fits size) : 4 * needed A.heap size ≤ A.line := by
  have hline := A.line_le h
  have hpos := A.line_pos
  have hfour := A.four_le_line
  unfold Area.Fits at hsize
  have hneed : needed A.heap size = ceil (size + 4) A.line / 4 := rfl
  rw [hneed, ceil_eq hpos]
  rcases Nat.lt_or_ge (size + 4 + A.line - 1) (2 ^ 32) with hneg | hwrap
  · have hzero : (2 ^ 32 - (size + 4 + A.line - 1)) / A.line = 0 :=
      Nat.div_eq_of_lt (by omega)
    rw [sdivMul_of_ge (by omega) (by omega) hneg, hzero]
    omega
  · -- the sum has passed 2³²
    have hmod : BitVec.ofNat 32 (size + 4 + A.line - 1) =
        BitVec.ofNat 32 (size + 4 + A.line - 1 - 2 ^ 32) := by
      apply BitVec.eq_of_toNat_eq
      rw [BitVec.toNat_ofNat, BitVec.toNat_ofNat]
      omega
    have hone : (size + 4 + A.line - 1 - 2 ^ 32) / A.line ≤ 1 :=
      Nat.lt_succ_iff.mp ((Nat.div_lt_iff_lt_mul hpos).mpr (by omega))
    have hle := Nat.mul_le_mul_left A.line hone
    rw [hmod, sdivMul_of_lt (by omega) (by omega)]
    omega

theorem HeapInv.room_of_free (h : HeapInv A m live bs) (hb : b ∈ bs) (hfree : Ulib.full m b = 0)
    (hk : k ≤ 4 * blockSize m b) : Room A m live k := by
  have hlo := h.tiles.lo b hb
  have hhi := (h.tiles.hi b hb).2
  have hnext : nextBlock m b = b + 4 * blockSize m b := rfl
  refine ⟨b, hlo, by omega, fun a hba hab => ?_⟩
  exact (h.freeByte_iff.mp ⟨b, hb, hfree, hba, by omega⟩).2.2

theorem Area.sought_pos (A : Area) (size : Nat) : 0 < A.sought size := by
  have hle := A.le_lineCeil (size + 4)
  unfold Area.sought
  split
  · omega
  · exact Nat.one_pos

theorem HeapInv.room_congr (h : HeapInv A m live bs) (hk : Keeps live m m') :
    Room A m' live k ↔ Room A m live k := by
  unfold Room
  simp only [h.taken_iff hk]

/-- `malloc` returns, and it finds a block exactly when there is room for one. -/
theorem HeapInv.malloc_room (h : HeapInv A u.mem live bs) (hlt : size < 2 ^ 32) :
    ∃ p u', malloc A.heap size u = some (p, u') ∧
      (p ≠ 0 ↔ Room A u.mem live (A.sought size)) := by
  rcases h.malloc_cases size with ⟨u', bs', heq, hmerged, hnone⟩ |
    ⟨m', bs', r, hinv, hkeeps, hr, hfree, hle, heq⟩
  · refine ⟨0, u', heq, iff_of_false (fun hne => hne rfl) ?_⟩
    rintro ⟨s, hs, ht, hroom⟩
    have hpos := A.sought_pos size
    have hsmall := A.small
    have hne : A.beg < A.end_ := by omega
    obtain ⟨b, hb, hb0, hlong⟩ := h.interval_merged hmerged hs (by omega) ht fun a hlo hhi =>
      h.freeByte_iff.mpr ⟨by omega, by omega, hroom a hlo hhi⟩
    have hshort : blockSize u'.mem b < needed A.heap size := by
      rcases hnone b hb with hfull | hshort
      · rw [hb0] at hfull
        exact absurd hfull (by decide)
      · exact hshort
    by_cases hfits : A.Fits size
    · have hceil := A.le_lineCeil (size + 4)
      have hline := A.line_le hne
      rw [Area.sought, if_pos hfits] at ht hlong
      rcases A.needed_cases hne hfits with hneed | ⟨hbig, -⟩
      · omega
      · omega
    · have hneed := A.needed_wrap hne hlt hfits
      have hline := hmerged.toHeapInv.line_le_size hb
      omega
  · refine ⟨r + 4, _, heq, iff_of_true (by omega) ?_⟩
    rw [← h.room_congr hkeeps]
    refine hinv.room_of_free hr hfree ?_
    have hne := hinv.nonempty hr
    have hline := hinv.line_le_size hr
    have hfour := A.four_le_line
    unfold Area.sought
    split
    · rename_i hfits
      rcases A.needed_cases hne hfits with hneed | ⟨-, hbig⟩
      · omega
      · have hlt24 := blockSize_lt (m := m') (p := r)
        omega
    · omega

/-- A block of the heap has no more than 2²⁶ bytes. -/
theorem Usable.lt (h : Usable A m live p n) : n < 2 ^ 26 := by
  have hsize := blockSize_lt (m := m) (p := p - 4)
  have hroom := h.room
  have hlo := h.lo
  rw [nextBlock] at hroom
  omega

/-- An allocated pointer has the bytes it was asked with. -/
theorem HeapInv.usable {live' : Live} (h : HeapInv A m live' bs) (hp : live' p = some n)
    (hlive : ∀ b, live (b + 4) ≠ none → live' (b + 4) ≠ none ∧ b + 4 ≠ p) :
    Usable A m live p n := by
  obtain ⟨b, hb, rfl, hle⟩ := h.room p n hp
  have hsub : b + 4 - 4 = b := Nat.add_sub_cancel b 4
  have hlo := h.tiles.lo b hb
  have hnext : nextBlock m b = b + 4 * blockSize m b := rfl
  constructor
  · rw [hsub]
    exact (h.full b hb).mpr (by simp [hp])
  · omega
  · rw [hsub]
    exact (h.tiles.hi b hb).2
  · rw [hsub]
    omega
  · intro c hc
    obtain ⟨hc', hne⟩ := hlive c hc
    rw [hsub]
    exact h.tiles.apart (h.live_mem hc') hb (by omega)

/-- What was allocated before a new pointer `p` is another pointer. -/
theorem live_update_of_dead (hdead : live p = none) (b : Nat) (hb : live (b + 4) ≠ none) :
    Function.update live p (some n) (b + 4) ≠ none ∧ b + 4 ≠ p := by
  have hne : b + 4 ≠ p := by
    rintro rfl
    exact hb hdead
  rw [Function.update_of_ne hne]
  exact ⟨hb, hne⟩

theorem room_one (h : Room A m live k) (hk : 0 < k) : Room A m live 1 := by
  obtain ⟨s, hs, ht, hfree⟩ := h
  exact ⟨s, hs, by omega, fun a hlo hhi => hfree a hlo (by omega)⟩

theorem HeapInv.mallocFits_iff (h : HeapInv A u.mem live bs)
    (hlow : A.beg = A.end_ ∨ A.end_ < 2 ^ 31) (hlt : size < 2 ^ 32) :
    MallocFits A u live size ↔ MallocCond A u live size := by
  obtain ⟨p, u', heq, hroom⟩ := h.malloc_room hlt
  by_cases hfits : A.Fits size
  · refine iff_of_true ?_ (.inl hfits)
    obtain ⟨q, u₁, heq', halloc, -⟩ := h.malloc_spec hlow fun _ => hfits
    refine ⟨q, u₁, heq', ?_⟩
    rcases halloc with ⟨hq, -⟩ | ⟨-, hdead, bs', hinv⟩
    · exact .inl hq
    · exact .inr (hinv.usable (Function.update_self ..) (live_update_of_dead hdead))
  · have hcond : MallocCond A u live size ↔ p = 0 := by
      rw [Area.sought, if_neg hfits] at hroom
      unfold MallocCond
      rw [or_iff_right hfits, ← hroom, not_not]
    rw [hcond]
    constructor
    · rintro ⟨q, u₁, heq', hq⟩
      rw [heq, Option.some.injEq, Prod.mk.injEq] at heq'
      obtain ⟨rfl, rfl⟩ := heq'
      refine hq.resolve_right fun husable => ?_
      have hlt26 := husable.lt
      unfold Area.Fits at hfits
      have hne : A.beg < A.end_ := by
        have hlo := husable.lo
        have hhi := husable.hi
        have hroom := husable.room
        omega
      have hline := A.line_le hne
      omega
    · exact fun hp => ⟨p, u', heq, .inl hp⟩

/-! ## `calloc` -/

theorem writeWord_zero : m.writeWord b 0 a = if b ≤ a ∧ a < b + 4 then 0 else m a := by
  unfold Mem.writeWord
  split
  · exact BitVec.extractLsb'_zero
  · rfl

/-- The loop leaves alone what is not in its words. -/
theorem clearLoop_outside {ptr : Nat} (k : Nat)
    (ha : ∀ i, i < k → a < ptrAdd ptr i ∨ ptrAdd ptr i + 4 ≤ a) :
    clearLoop ptr k m a = m a := by
  induction k generalizing m with
  | zero => rfl
  | succ k ih =>
    rw [clearLoop, ih fun i hi => ha i (by omega)]
    exact Mem.writeWord_of_outside (ha k (Nat.lt_succ_self k))

theorem clearLoop_of_zero {ptr : Nat} (k : Nat) (ha : m a = 0) : clearLoop ptr k m a = 0 := by
  induction k generalizing m with
  | zero => exact ha
  | succ k ih =>
    rw [clearLoop]
    apply ih
    rw [writeWord_zero, ha, ite_self]

/-- The loop clears its words. -/
theorem clearLoop_inside {ptr i : Nat} (k : Nat) (hi : i < k) (hlo : ptrAdd ptr i ≤ a)
    (hhi : a < ptrAdd ptr i + 4) : clearLoop ptr k m a = 0 := by
  induction k generalizing m with
  | zero => omega
  | succ k ih =>
    rw [clearLoop]
    rcases Nat.lt_succ_iff_lt_or_eq.mp hi with hlt | rfl
    · exact ih hlt
    · apply clearLoop_of_zero
      rw [writeWord_zero, if_pos ⟨hlo, hhi⟩]

/-- `calloc` after its call of `malloc`. -/
theorem calloc_eq {H : Heap} {u₁ : User} (hm : malloc H (n * size % 2 ^ 32) u = some (p, u₁)) :
    calloc H n size u = if p = 0 then some (0, u₁) else
      some (p, ⟨clearLoop p ((n * size % 2 ^ 32 + 2 ^ 32 - 1) % 2 ^ 32 / 4 + 1) u₁.mem,
        u₁.errno⟩) := by
  simp only [calloc, hm, Option.bind_eq_bind, Option.bind_some]

/-- A product that fits is cleared inside its block. -/
theorem HeapInv.clear_spec {live' : Live} (h : HeapInv A m live' bs) (hp : live' p = some n)
    (hpos : 0 < n) (hm : m' = clearLoop p ((n + 2 ^ 32 - 1) % 2 ^ 32 / 4 + 1) m) :
    HeapInv A m' live' bs ∧ (∀ a, p ≤ a → a < p + n → m' a = 0) ∧
      ∀ a, a < p ∨ nextBlock m' (p - 4) ≤ a → m' a = m a := by
  obtain ⟨b, hb, rfl, hle⟩ := h.room p n hp
  have hnext : nextBlock m b = b + 4 * blockSize m b := rfl
  have hhi := (h.tiles.hi b hb).2
  have hend := A.end_lt
  obtain ⟨k, hk⟩ : ∃ k, k = (n + 2 ^ 32 - 1) % 2 ^ 32 / 4 + 1 := ⟨_, rfl⟩
  rw [← hk] at hm
  have hkn : n ≤ 4 * k ∧ 4 * k + 4 ≤ 4 * blockSize m b := by omega
  have hword : ∀ i, i < k → ptrAdd (b + 4) i = b + 4 + 4 * i := by
    intro i hi
    unfold ptrAdd
    exact Nat.mod_eq_of_lt (by omega)
  have hout : ∀ a, a < b + 4 ∨ nextBlock m b ≤ a → m' a = m a := by
    intro a ha
    rw [hm]
    refine clearLoop_outside k fun i hi => ?_
    rw [hword i hi]
    omega
  have hfill : ∀ a, m' a ≠ m a →
      ∃ b, live' (b + 4) ≠ none ∧ b + 4 ≤ a ∧ a < nextBlock m b := by
    intro a hne
    by_contra hno
    refine hne (hout a ?_)
    by_contra hin
    exact hno ⟨b, by simp [hp], by omega, by omega⟩
  have hsub : b + 4 - 4 = b := Nat.add_sub_cancel b 4
  refine ⟨h.fill hfill, fun a hlo hhi => ?_, fun a ha => hout a ?_⟩
  · have hi : (a - (b + 4)) / 4 < k := by omega
    have hw := hword _ hi
    rw [hm]
    exact clearLoop_inside k hi (by omega) (by omega)
  · rwa [hsub, (h.sameInfo_fill hfill b hb).next] at ha

/-- The product of a call of `calloc` that keeps its promise and finds a block. -/
theorem CallocCond.product (h : CallocCond A u live n size)
    (hroom : Room A u.mem live (A.sought (n * size % 2 ^ 32))) :
    0 < n * size ∧ A.Fits (n * size) ∧ n * size % 2 ^ 32 = n * size := by
  rcases h with ⟨hpos, hfits⟩ | hno
  · refine ⟨hpos, hfits, Nat.mod_eq_of_lt ?_⟩
    unfold Area.Fits at hfits
    omega
  · exact absurd hroom hno

/-- `calloc` returns, with a new block that it has cleared or without any. -/
theorem HeapInv.calloc_spec (h : HeapInv A u.mem live bs)
    (hlow : A.beg = A.end_ ∨ A.end_ < 2 ^ 31) (hcond : CallocCond A u live n size) :
    ∃ p u₁ u', malloc A.heap (n * size % 2 ^ 32) u = some (p, u₁) ∧
      calloc A.heap n size u = some (p, u') ∧
      (p = 0 ∧ (∃ bs', HeapInv A u'.mem live bs') ∨
        p ≠ 0 ∧ live p = none ∧
        (∃ bs', HeapInv A u'.mem (Function.update live p (some (n * size))) bs') ∧
        (∀ a, p ≤ a → a < p + n * size → u'.mem a = 0) ∧
        ∀ a, a < p ∨ nextBlock u'.mem (p - 4) ≤ a → u'.mem a = u₁.mem a) := by
  rcases h.malloc_cases (n * size % 2 ^ 32) with ⟨u₁, bs', heq, hmerged, -⟩ |
    ⟨m', bs', r, -, -, -, -, -, heq⟩
  · refine ⟨0, u₁, u₁, heq, ?_, .inl ⟨rfl, bs', hmerged.toHeapInv⟩⟩
    rw [calloc_eq heq, if_pos rfl]
  · obtain ⟨p, u₁, heq', hroom⟩ := h.malloc_room (Nat.mod_lt (n * size) (Nat.two_pow_pos 32))
    have hp : p ≠ 0 := by
      rw [heq, Option.some.injEq, Prod.mk.injEq] at heq'
      omega
    obtain ⟨hpos, hfits, hmod⟩ := hcond.product (hroom.mp hp)
    obtain ⟨q, u₂, heq₂, halloc, -⟩ := h.malloc_spec hlow fun _ => hfits
    rw [hmod] at heq'
    rw [heq', Option.some.injEq, Prod.mk.injEq] at heq₂
    obtain ⟨rfl, rfl⟩ := heq₂
    obtain ⟨-, hdead, bs₂, hinv⟩ := halloc.resolve_left fun hz => hp hz.1
    obtain ⟨hinv', hzero, hout⟩ := hinv.clear_spec (Function.update_self ..) hpos rfl
    have hmalloc : malloc A.heap (n * size % 2 ^ 32) u = some (p, u₁) := by rw [hmod, heq']
    have hcalloc := calloc_eq hmalloc
    rw [if_neg hp, hmod] at hcalloc
    exact ⟨p, u₁, _, hmalloc, hcalloc, .inr ⟨hp, hdead, ⟨bs₂, hinv'⟩, hzero, hout⟩⟩

/-- Nothing to clear: the loop clears the information of the block too. -/
theorem clearLoop_info (hp : 4 ≤ p) (hlt : p < 2 ^ 32) :
    Ulib.full (clearLoop p (2 ^ 30) m) (p - 4) = 0 := by
  have hword : ptrAdd p (2 ^ 30 - 1) = p - 4 := by
    unfold ptrAdd
    omega
  have hzero : ∀ a, p - 4 ≤ a → a < p - 4 + 4 → clearLoop p (2 ^ 30) m a = 0 := fun a hlo hhi =>
    clearLoop_inside (2 ^ 30) (Nat.sub_one_lt (by decide)) (hword ▸ hlo) (hword ▸ hhi)
  have hread : (clearLoop p (2 ^ 30) m).readWord (p - 4) = 0 := by
    unfold Mem.readWord
    rw [hzero _ (by omega) (by omega), hzero _ (by omega) (by omega),
      hzero _ (by omega) (by omega), hzero _ (by omega) (by omega)]
    rfl
  unfold Ulib.full
  rw [hread]
  rfl

theorem HeapInv.callocFits_iff (h : HeapInv A u.mem live bs)
    (hlow : A.beg = A.end_ ∨ A.end_ < 2 ^ 31) :
    CallocFits A u live n size ↔ CallocCond A u live n size := by
  constructor
  · rintro ⟨p, u₁, u', heq, hcalloc, hp⟩
    obtain ⟨q, u₂, heq', hroom⟩ := h.malloc_room (Nat.mod_lt (n * size) (Nat.two_pow_pos 32))
    rw [heq, Option.some.injEq, Prod.mk.injEq] at heq'
    obtain ⟨rfl, rfl⟩ := heq'
    rcases hp with hp | ⟨husable, -⟩
    · exact .inr fun hr => hroom.mpr hr hp
    · have hlt := husable.lt
      have hlo := husable.lo
      have hhi := husable.hi
      have hspace := husable.room
      have hend := A.end_lt
      have hline := A.line_le (by omega)
      refine .inl ⟨Nat.pos_of_ne_zero fun h0 => ?_, by unfold Area.Fits; omega⟩
      have hcount : (0 % 2 ^ 32 + 2 ^ 32 - 1) % 2 ^ 32 / 4 + 1 = 2 ^ 30 := by omega
      rw [calloc_eq heq, if_neg (by omega), h0, hcount, Option.some.injEq, Prod.mk.injEq]
        at hcalloc
      have hfull := husable.full
      rw [← hcalloc.2] at hfull
      simp only [clearLoop_info (show 4 ≤ p by omega) (show p < 2 ^ 32 by omega)] at hfull
      exact absurd hfull (by decide)
  · intro hcond
    obtain ⟨p, u₁, u', heq, hcalloc, hp⟩ := h.calloc_spec hlow hcond
    refine ⟨p, u₁, u', heq, hcalloc, ?_⟩
    rcases hp with ⟨hp, -⟩ | ⟨-, hdead, ⟨bs', hinv⟩, hzero, hout⟩
    · exact .inl hp
    · exact .inr ⟨hinv.usable (Function.update_self ..) (live_update_of_dead hdead), hzero, hout⟩

end

/-! ## `kcalloc` -/

section
variable {L : Kernel.Layout} {s₀ s : Kernel.Kmem} {live : Kernel.Live} {n size : Nat}

/-- The product is served as it is in 32 bits. -/
theorem kcallocFits_iff (h : Kernel.ExhaustRun L s₀ s live) :
    KcallocFits L s n size ↔ KcallocCond L s n size := by
  obtain ⟨kind, free, hinv⟩ := h.slabRun.inv
  unfold KcallocFits KcallocCond Kernel.kcalloc
  obtain ⟨total, htotal⟩ : ∃ total, total = n * size % 2 ^ 32 := ⟨_, rfl⟩
  rw [← htotal]
  rcases Nat.lt_or_ge Kernel.pageSize total with hbig | hle
  · -- more than a page
    have hnone : Kernel.kmalloc L total s = none := by
      simp only [Kernel.kmalloc, Kernel.kmallocStep, if_pos hbig]
    refine iff_of_true (fun x s' hk => ?_) ⟨fun hu => ?_, .inr (.inl hbig)⟩
    · rw [hnone] at hk
      exact absurd hk (by simp)
    · exact absurd hu.2.1 (Nat.not_lt.mpr (Nat.le_of_lt hbig))
  by_cases havail : Kernel.PageAvailable L s total
  · -- an object of `total` bytes
    obtain ⟨x, s', heq, -, h0, hlo, hhi, hsize, hzero⟩ := hinv.kmalloc_object hle havail
    have hkme := L.kme_lt
    have hkme' : L.kme = L.kmb + L.nbPages * Kernel.pageSize := rfl
    constructor
    · intro hfits
      obtain ⟨-, -, hend, -⟩ := hfits x s' heq
      exact ⟨havail.not_unseen hle, .inl (by omega)⟩
    · rintro ⟨-, hcond⟩
      have hlt : n * size < 2 ^ 32 :=
        hcond.resolve_right fun hno => hno.elim (Nat.not_lt.mpr hle) fun hno => hno havail
      rw [Nat.mod_eq_of_lt hlt] at htotal
      intro y t hk
      rw [heq, Option.some.injEq, Prod.mk.injEq] at hk
      obtain ⟨rfl, rfl⟩ := hk
      rw [← htotal]
      exact ⟨h0, hlo, hhi, hsize, hzero⟩
  · -- neither an object nor a page
    obtain ⟨hempty, hpages⟩ := hinv.empty_of_unavailable havail
    rcases hinv.kmalloc_empty hle hempty hpages with ⟨hseen, hnone⟩ | ⟨hunseen, s', hnull⟩
    · refine iff_of_true (fun x s' hk => ?_) ⟨hseen, .inr (.inr havail)⟩
      rw [hnone] at hk
      exact absurd hk (by simp)
    · exact iff_of_false (fun hfits => (hfits 0 s' hnull).1 rfl) fun hcond => hcond.1 hunseen

end

/-! ## Runs -/

/-- The states reached after `malloc_init` by requests of any size for which the calls keep
their promise. -/
inductive SizedRun (A : Area) (u₀ : User) : User → Live → Prop where
  | init {u : User} : mallocInit A.line A.beg A.end_ u₀ = some (A.heap, u) →
      SizedRun A u₀ u fun _ => none
  | malloc {u u' : User} {live : Live} {p : Nat} (size : BitVec 32) : SizedRun A u₀ u live →
      MallocCond A u live size.toNat → malloc A.heap size.toNat u = some (p, u') →
      SizedRun A u₀ u' (if p = 0 then live else Function.update live p (some size.toNat))
  | calloc {u u' : User} {live : Live} {p : Nat} (n size : BitVec 32) : SizedRun A u₀ u live →
      CallocCond A u live n.toNat size.toNat →
      calloc A.heap n.toNat size.toNat u = some (p, u') →
      SizedRun A u₀ u'
        (if p = 0 then live else Function.update live p (some (n.toNat * size.toNat)))
  | free {u u' : User} {live : Live} {p : Nat} : SizedRun A u₀ u live →
      live p ≠ none → free p u = some u' → SizedRun A u₀ u' (Function.update live p none)
  | store {u u' : User} {live : Live} : SizedRun A u₀ u live →
      (∀ a, u'.mem a ≠ u.mem a → ∃ p n, live p = some n ∧ p ≤ a ∧ a < p + n) →
      SizedRun A u₀ u' live

section
variable {A : Area} {u u₀ : User} {live : Live} {bs : List Nat} {size : Nat}

/-- `malloc` of a size for which it keeps its promise. -/
theorem HeapInv.malloc_sized (h : HeapInv A u.mem live bs)
    (hlow : A.beg = A.end_ ∨ A.end_ < 2 ^ 31) (hlt : size < 2 ^ 32)
    (hcond : MallocCond A u live size) :
    ∃ p u', malloc A.heap size u = some (p, u') ∧ Allocated A live size p u'.mem := by
  rcases hcond with hfits | hno
  · obtain ⟨p, u', heq, halloc, -⟩ := h.malloc_spec hlow fun _ => hfits
    exact ⟨p, u', heq, halloc⟩
  · obtain ⟨p, u', heq, hroom⟩ := h.malloc_room hlt
    have hp : p = 0 := by
      by_contra hp
      exact hno (room_one (hroom.mp hp) (A.sought_pos size))
    rcases h.malloc_cases size with ⟨u₁, bs', heq', hmerged, -⟩ |
      ⟨m', bs', r, -, -, -, -, -, heq'⟩
    · exact ⟨0, u₁, heq', .inl ⟨rfl, bs', hmerged.toHeapInv⟩⟩
    · rw [heq, Option.some.injEq, Prod.mk.injEq] at heq'
      omega

/-- The invariant of the heap holds along these runs as well. -/
theorem SizedRun.inv (hlow : A.beg = A.end_ ∨ A.end_ < 2 ^ 31) (h : SizedRun A u₀ u live) :
    ∃ bs, HeapInv A u.mem live bs := by
  induction h with
  | init hinit => exact (HeapRun.init hinit).inv hlow
  | malloc size _ hcond hm ih =>
    obtain ⟨bs, hinv⟩ := ih
    obtain ⟨p, u', heq, halloc⟩ := hinv.malloc_sized hlow size.isLt hcond
    rw [heq, Option.some.injEq, Prod.mk.injEq] at hm
    obtain ⟨rfl, rfl⟩ := hm
    rcases halloc with ⟨hp, hinv'⟩ | ⟨hp, -, hinv'⟩
    · rwa [if_pos hp]
    · rwa [if_neg hp]
  | calloc n size _ hcond hc ih =>
    obtain ⟨bs, hinv⟩ := ih
    obtain ⟨p, u₁, u', -, heq, halloc⟩ := hinv.calloc_spec hlow hcond
    rw [heq, Option.some.injEq, Prod.mk.injEq] at hc
    obtain ⟨rfl, rfl⟩ := hc
    rcases halloc with ⟨hp, hinv'⟩ | ⟨hp, -, hinv', -⟩
    · rwa [if_pos hp]
    · rwa [if_neg hp]
  | free _ hlive hf ih =>
    obtain ⟨bs, hinv⟩ := ih
    obtain ⟨u', heq, hinv', -⟩ := hinv.free_spec hlive
    rw [heq, Option.some.injEq] at hf
    exact ⟨bs, hf ▸ hinv'⟩
  | store _ hm ih =>
    obtain ⟨bs, hinv⟩ := ih
    exact ⟨bs, hinv.store hm⟩

/-- From 0x80000000 on, the block of the first request for all of the heap does not end in the
heap. -/
theorem malloc_high_unfit (hne : A.beg < A.end_) (hhigh : 2 ^ 31 ≤ A.end_)
    (hfree : full u.mem A.beg = 0) (hblock : blockSize u.mem A.beg = (A.end_ - A.beg) / 4) :
    ¬ MallocFits A u live (A.end_ - A.beg - 4) := by
  have heq := malloc_high hne hfree hblock
  have hsize := take_high hne hhigh hblock
  have hdvd : 4 ∣ A.end_ - A.beg + A.line :=
    Nat.dvd_add (A.four_dvd_line.trans (Nat.dvd_sub A.end_aligned A.beg_aligned)) A.four_dvd_line
  have hpos := A.line_pos
  have hfits := A.longer_le hne
  rintro ⟨p, u', heq', hp⟩
  rw [heq, Option.some.injEq, Prod.mk.injEq] at heq'
  obtain ⟨rfl, rfl⟩ := heq'
  rcases hp with hp | husable
  · omega
  · have hhi := husable.hi
    have hroom := husable.room
    simp only [Nat.add_sub_cancel, nextBlock, hsize] at hhi hroom
    omega

end

/-- The sizes and the products for which the calls keep their promise, in all states that are
reached by such calls: those of `malloc` and `calloc` if and only if the heap is empty or
ends below 0x80000000. -/
theorem sizes_fit_iff (A : Area) (L : Kernel.Layout) :
    ((∀ u₀ u live, SizedRun A u₀ u live → ∀ n size : BitVec 32,
        (MallocFits A u live size.toNat ↔ MallocCond A u live size.toNat) ∧
        (CallocFits A u live n.toNat size.toNat ↔ CallocCond A u live n.toNat size.toNat)) ↔
      (A.beg = A.end_ ∨ A.end_ < 2 ^ 31)) ∧
    ∀ s₀ s live, Kernel.ExhaustRun L s₀ s live → ∀ n size : BitVec 32,
      (KcallocFits L s n.toNat size.toNat ↔ KcallocCond L s n.toNat size.toNat) := by
  refine ⟨⟨fun hall => ?_, fun hlow u₀ u live hrun n size => ?_⟩,
    fun s₀ s live hrun n size => kcallocFits_iff hrun⟩
  · rcases Nat.eq_or_lt_of_le A.beg_le with heq | hne
    · exact .inl heq
    rcases Nat.lt_or_ge A.end_ (2 ^ 31) with hlow | hhigh
    · exact .inr hlow
    obtain ⟨m, hinit, bs, -, hblock⟩ := mallocInit_spec A zeroUser
    obtain ⟨hfree, hblock⟩ := hblock hne
    have hsmall := A.small
    have hline := A.line_le hne
    have hsize : (BitVec.ofNat 32 (A.end_ - A.beg - 4)).toNat = A.end_ - A.beg - 4 :=
      toNat_ofNat_of_lt (by omega)
    have hiff := (hall zeroUser _ _ (.init hinit) 0 (BitVec.ofNat 32 (A.end_ - A.beg - 4))).1
    rw [hsize] at hiff
    refine absurd (hiff.mpr (.inl ?_)) (malloc_high_unfit hne hhigh hfree hblock)
    unfold Area.Fits
    omega
  · obtain ⟨bs, hinv⟩ := hrun.inv hlow
    exact ⟨hinv.mallocFits_iff hlow size.isLt, hinv.callocFits_iff hlow⟩

/-! ## A heap of `almo1-mips` -/

/-- The user heap of four pages where `almo1-mips` has the data of its first application. -/
def almoHeap : Area where
  lineShift := 4
  beg := 0x70010000
  end_ := 0x70014000
  line_min := by decide
  line_max := by decide
  beg_aligned := by decide
  end_aligned := by decide
  beg_le := by decide
  end_lt := by decide
  small := by decide

/-- Right after `malloc_init` there, `malloc (0xFFFFFFFC)`, `calloc (65536, 65536)` and
`calloc (0, 1)` break their promise, and so does `kcalloc (65536, 65536)` in a heap with a
free page. -/
theorem sizes_wrapped :
    (∃ u live, SizedRun almoHeap zeroUser u live ∧ ¬ MallocFits almoHeap u live 0xFFFFFFFC ∧
      ¬ CallocFits almoHeap u live 65536 65536 ∧ ¬ CallocFits almoHeap u live 0 1) ∧
    ∃ s live, Kernel.ExhaustRun Kernel.tinyHeap Kernel.usedMem s live ∧
      ¬ KcallocFits Kernel.tinyHeap s 65536 65536 := by
  constructor
  · obtain ⟨m, hinit, bs, hinv, -⟩ := mallocInit_spec almoHeap zeroUser
    have hlow : almoHeap.beg = almoHeap.end_ ∨ almoHeap.end_ < 2 ^ 31 := .inr (by decide)
    have hroom : ∀ k, k ≤ 0x4000 → Room almoHeap m (fun _ => none) k := by
      intro k hk
      refine ⟨0x70010000, Nat.le_refl _, Nat.add_le_add_left hk 0x70010000, fun a _ _ => ?_⟩
      rintro ⟨b, hb, -⟩
      exact hb rfl
    refine ⟨_, _, .init hinit, fun hfits => ?_, fun hfits => ?_, fun hfits => ?_⟩
    · rcases (hinv.mallocFits_iff (u := ⟨m, 0⟩) hlow (by decide)).mp hfits with hsize | hno
      · exact absurd hsize (by decide)
      · exact hno (hroom 1 (by decide))
    · rcases (hinv.callocFits_iff (u := ⟨m, 0⟩) hlow).mp hfits with ⟨-, hsize⟩ | hno
      · exact absurd hsize (by decide)
      · exact hno (hroom _ (by decide))
    · rcases (hinv.callocFits_iff (u := ⟨m, 0⟩) hlow).mp hfits with ⟨hpos, -⟩ | hno
      · exact absurd hpos (by decide)
      · exact hno (hroom _ (by decide))
  · refine ⟨_, _, .init, fun hfits => ?_⟩
    obtain ⟨-, hlt | hbig | hno⟩ := (kcallocFits_iff .init).mp hfits
    · exact absurd hlt (by decide)
    · exact absurd hbig (by decide)
    · have hinit := Kernel.inv_init Kernel.tinyHeap Kernel.usedMem
      refine hno (.inr ?_)
      rw [← Bool.not_eq_true, (hinit.rep 0 (by decide)).isempty_iff]
      simp [Kernel.tinyHeap]

end Ko6.Ulib
