import Ko6.Kernel.Kmemkernel

set_option autoImplicit false

/-!
# Kernel: the slab allocator keeps its objects apart

Each page of the heap is divided into pieces of one size: one piece when it is
free or given out whole, as many as fit when it has been cut.  At any moment a
piece is a live object or an item of the free list of its size, and never both.
`Threaded` states this of the lists in memory, `Described` of the descriptor of
one page; `Inv` puts them together and is kept by every operation.
-/

namespace Ko6.Kernel

open Ko6.Lib Ko6.Common

/-! ## Sizes and addresses -/

namespace Layout

variable (L : Layout)

theorem line_pos : 0 < L.cacheLineSize := Nat.two_pow_pos _

theorem sixteen_dvd_line : 16 ∣ L.cacheLineSize := pow_dvd_pow 2 L.line_min

theorem line_dvd_page : L.cacheLineSize ∣ pageSize := pow_dvd_pow 2 L.line_max

theorem maxLineSlab_mul : L.maxLineSlab * L.cacheLineSize = pageSize :=
  Nat.div_mul_cancel L.line_dvd_page

theorem maxLineSlab_pos : 0 < L.maxLineSlab := by
  have h := L.maxLineSlab_mul
  rcases Nat.eq_zero_or_pos L.maxLineSlab with h0 | h0
  · rw [h0, Nat.zero_mul] at h
    exact absurd h (by decide)
  · exact h0

theorem maxLineSlab_le : L.maxLineSlab ≤ 256 := by
  have h16 : 16 ≤ L.cacheLineSize := Nat.le_of_dvd L.line_pos L.sixteen_dvd_line
  have h := L.maxLineSlab_mul
  nlinarith

/-- The size of the objects of `Slab[l]`. -/
def objSize (l : Nat) : Nat := if l = 0 then pageSize else l * L.cacheLineSize

/-- How many of them a page holds. -/
def perPage (l : Nat) : Nat := pageSize / L.objSize l

/-- The first byte of page `p`. -/
def pageAddr (p : Nat) : Nat := L.kmb + p * pageSize

theorem line_dvd_objSize (l : Nat) : L.cacheLineSize ∣ L.objSize l := by
  rw [objSize]
  split
  · exact L.line_dvd_page
  · exact Nat.dvd_mul_left _ _

theorem objSize_pos (l : Nat) : 0 < L.objSize l := by
  rw [objSize]
  split
  · decide
  · exact Nat.mul_pos (by omega) L.line_pos

theorem sixteen_le_objSize (l : Nat) : 16 ≤ L.objSize l :=
  Nat.le_of_dvd (L.objSize_pos l) (L.sixteen_dvd_line.trans (L.line_dvd_objSize l))

theorem objSize_le {l : Nat} (hl : l < L.maxLineSlab) : L.objSize l ≤ pageSize := by
  rw [objSize]
  split
  · exact Nat.le_refl _
  · rw [← L.maxLineSlab_mul]
    exact Nat.mul_le_mul_right _ (by omega)

theorem perPage_pos {l : Nat} (hl : l < L.maxLineSlab) : 0 < L.perPage l :=
  Nat.div_pos (L.objSize_le hl) (L.objSize_pos l)

theorem perPage_le (l : Nat) : L.perPage l ≤ 256 := by
  have h16 := L.sixteen_le_objSize l
  calc L.perPage l ≤ pageSize / 16 := Nat.div_le_div_left h16 (by decide)
    _ = 256 := by decide

@[simp] theorem perPage_zero : L.perPage 0 = 1 := by
  rw [perPage, objSize, if_pos rfl, Nat.div_self (by decide)]

/-- A piece ends in its page. -/
theorem piece_end_le {l k : Nat} (hk : k < L.perPage l) :
    k * L.objSize l + L.objSize l ≤ pageSize := by
  have hmul : (k + 1) * L.objSize l ≤ L.perPage l * L.objSize l :=
    Nat.mul_le_mul_right _ hk
  have hdiv := Nat.div_mul_le_self pageSize (L.objSize l)
  rw [perPage] at hmul
  rw [Nat.add_mul, Nat.one_mul] at hmul
  omega

/-- The lines asked for: enough for the size, and a whole page exactly when they
are all of it. -/
theorem nbline_spec {size : Nat} (hsize : size ≤ pageSize) :
    L.nbline size ≤ L.maxLineSlab ∧ size ≤ L.nbline size * L.cacheLineSize := by
  have hpos := L.line_pos
  have hmax := L.maxLineSlab_mul
  constructor
  · rw [nbline, ← Nat.lt_succ_iff, Nat.div_lt_iff_lt_mul hpos, Nat.succ_mul]
    omega
  · have hlt := Nat.lt_div_mul_add hpos (a := size + L.cacheLineSize - 1)
    rw [nbline]
    omega

theorem pageIdx_eq {p a : Nat} (hp : p < L.nbPages) (hlo : L.pageAddr p ≤ a)
    (hhi : a < L.pageAddr p + pageSize) : L.pageIdx a = p := by
  have hfit := L.kme_lt
  have hram := L.pages_le
  simp only [pageAddr, pageSize] at *
  have hdiff : (BitVec.ofNat 32 a - BitVec.ofNat 32 L.kmb).toNat = a - L.kmb := by
    rw [BitVec.toNat_sub, BitVec.toNat_ofNat, BitVec.toNat_ofNat]
    omega
  have hmsb : (BitVec.ofNat 32 a - BitVec.ofNat 32 L.kmb).msb = false := by
    rw [BitVec.msb_eq_false_iff_two_mul_lt, hdiff]
    omega
  rw [pageIdx, BitVec.toNat_sshiftRight_of_msb_false hmsb, hdiff, Nat.shiftRight_eq_div_pow]
  have hq : (a - L.kmb) / 2 ^ 12 = p := by omega
  rw [hq, Nat.mod_eq_of_lt hp]

end Layout

/-! ## Pieces -/

/-- Which slab each page is used for: 0 for a page that is not cut. -/
abbrev Kinds : Type := Nat → Nat

/-- The live objects and the sizes they were asked with. -/
abbrev Live : Type := Nat → Option Nat

/-- `a` is the address of piece `k` of page `p`. -/
structure Piece (L : Layout) (kind : Kinds) (a p k : Nat) : Prop where
  page_lt : p < L.nbPages
  kind_lt : kind p < L.maxLineSlab
  index_lt : k < L.perPage (kind p)
  addr : a = L.pageAddr p + k * L.objSize (kind p)

namespace Piece

variable {L : Layout} {kind : Kinds} {a b p q k j : Nat}

theorem lo (h : Piece L kind a p k) : L.pageAddr p ≤ a := by
  rw [h.addr]
  omega

theorem hi (h : Piece L kind a p k) : a + L.objSize (kind p) ≤ L.pageAddr p + pageSize := by
  have hend := L.piece_end_le h.index_lt
  rw [h.addr]
  omega

theorem lt (h : Piece L kind a p k) : a < L.pageAddr p + pageSize := by
  have hpos := L.objSize_pos (kind p)
  have hhi := h.hi
  omega

theorem pageIdx (h : Piece L kind a p k) : L.pageIdx a = p :=
  L.pageIdx_eq h.page_lt h.lo h.lt

theorem page_eq (h : Piece L kind a p k) (h' : Piece L kind a q j) : p = q := by
  rw [← h.pageIdx, h'.pageIdx]

theorem line_dvd (h : Piece L kind a p k) : L.cacheLineSize ∣ a := by
  have hpage : L.cacheLineSize ∣ L.pageAddr p :=
    Nat.dvd_add (L.line_dvd_page.trans L.kmb_aligned) (L.line_dvd_page.mul_left _)
  rw [h.addr]
  exact Nat.dvd_add hpage ((L.line_dvd_objSize _).mul_left _)

theorem in_heap (h : Piece L kind a p k) : L.kmb ≤ a ∧ a + L.objSize (kind p) ≤ L.kme := by
  have hlo := h.lo
  have hhi := h.hi
  have hp := h.page_lt
  simp only [Layout.pageAddr, Layout.kme, pageSize] at *
  omega

theorem isCell (h : Piece L kind a p k) : L.IsCell a := by
  have hin := h.in_heap
  have hpos := L.objSize_pos (kind p)
  exact .inr ⟨hin.1, by omega, L.sixteen_dvd_line.trans h.line_dvd⟩

/-- Two pieces do not overlap. -/
theorem apart (h : Piece L kind a p k) (h' : Piece L kind b q j) (hne : a ≠ b) :
    a + L.objSize (kind p) ≤ b ∨ b + L.objSize (kind q) ≤ a := by
  by_cases hpq : p = q
  · subst hpq
    have hkj : k ≠ j := by
      rintro rfl
      exact hne (h.addr.trans h'.addr.symm)
    rw [h.addr, h'.addr]
    -- the multiples of one size are at least that size apart
    rcases Nat.lt_or_gt_of_ne hkj with hlt | hlt
    · have hmul := Nat.mul_le_mul_right (L.objSize (kind p)) (Nat.succ_le_of_lt hlt)
      rw [Nat.succ_mul] at hmul
      omega
    · have hmul := Nat.mul_le_mul_right (L.objSize (kind p)) (Nat.succ_le_of_lt hlt)
      rw [Nat.succ_mul] at hmul
      omega
  · have hlo := h.lo
    have hhi := h.hi
    have hlo' := h'.lo
    have hhi' := h'.hi
    simp only [Layout.pageAddr, pageSize] at *
    omega

/-- A piece depends on the kind of its own page. -/
theorem congr {kind' : Kinds} (h : Piece L kind a p k) (hkind : kind' p = kind p) :
    Piece L kind' a p k := by
  refine ⟨h.page_lt, ?_, ?_, ?_⟩
  · rw [hkind]
    exact h.kind_lt
  · rw [hkind]
    exact h.index_lt
  · rw [hkind]
    exact h.addr

end Piece

/-- The one piece of a page that is not cut. -/
theorem piece_of_page {L : Layout} {kind : Kinds} {p : Nat} (hp : p < L.nbPages)
    (hkind : kind p = 0) : Piece L kind (L.pageAddr p) p 0 := by
  refine ⟨hp, ?_, ?_, by simp⟩
  · rw [hkind]
    exact L.maxLineSlab_pos
  · rw [hkind, L.perPage_zero]
    exact Nat.zero_lt_one

theorem Piece.of_kind_zero {L : Layout} {kind : Kinds} {a p k : Nat} (h : Piece L kind a p k)
    (hkind : kind p = 0) : k = 0 ∧ a = L.pageAddr p := by
  have hk := h.index_lt
  have ha := h.addr
  rw [hkind, L.perPage_zero, Nat.lt_one_iff] at hk
  subst hk
  exact ⟨rfl, by simpa using ha⟩

theorem slab_isCell {L : Layout} {l : Nat} (hl : l < L.maxLineSlab) : L.IsCell (L.slab l) :=
  .inl ⟨l, Nat.lt_of_lt_of_le hl L.maxLineSlab_le, rfl⟩

theorem slab_end_le {L : Layout} {l : Nat} (hl : l < L.maxLineSlab) :
    L.slab l + 8 ≤ L.kmb := by
  have hmax := L.maxLineSlab_le
  have hs := L.slab_le
  simp only [Layout.slab]
  omega

/-! ## The lists in memory -/

/-- The free list of each size holds the pieces of that size that are not live,
and every live object is a piece with room for it. -/
structure Threaded (L : Layout) (s : Kmem) (live : Live) (kind : Kinds)
    (free : Nat → List Nat) : Prop where
  kind_lt : ∀ p, p < L.nbPages → kind p < L.maxLineSlab
  rep : ∀ l, l < L.maxLineSlab → Rep (cells L) s (L.slab l) (free l)
  mem_free : ∀ l, l < L.maxLineSlab → ∀ a,
    a ∈ free l ↔ ∃ p k, Piece L kind a p k ∧ kind p = l ∧ live a = none
  live_piece : ∀ a n, live a = some n →
    ∃ p k, Piece L kind a p k ∧ n ≤ L.objSize (kind p)

/-- The bytes of the live objects, to the end of their last line. -/
def Owned (L : Layout) (live : Live) (kind : Kinds) (b : Nat) : Prop :=
  ∃ a p k, Piece L kind a p k ∧ live a ≠ none ∧ a ≤ b ∧ b < a + L.objSize (kind p)

/-- The lists observe the first eight bytes of their cells. -/
theorem outside_byte {L : Layout} {b c : Nat} (h : b < c ∨ c + 8 ≤ b) :
    Outside (cells L) (fun s => s.mem b) c where
  setNext _ _ := Mem.writeWord_of_outside (by omega)
  setPrev _ _ := Mem.writeWord_of_outside (by omega)

theorem outside_page {L : Layout} (c : Nat) : Outside (cells L) Kmem.page c where
  setNext _ _ := rfl
  setPrev _ _ := rfl

theorem links_congr {L : Layout} {s s' : Kmem} {c : Nat}
    (h : ∀ b, c ≤ b → b < c + 8 → s'.mem b = s.mem b) :
    ((cells L).next s' c, (cells L).prev s' c) = ((cells L).next s c, (cells L).prev s c) := by
  have hnext : (cells L).next s' c = (cells L).next s c :=
    congrArg BitVec.toNat (Mem.readWord_congr fun b hlo hhi => h b hlo (by omega))
  have hprev : (cells L).prev s' c = (cells L).prev s c :=
    congrArg BitVec.toNat (Mem.readWord_congr fun b hlo hhi => h b (by omega) (by omega))
  rw [hnext, hprev]

namespace Threaded

variable {L : Layout} {s s' : Kmem} {live : Live} {kind : Kinds} {free : Nat → List Nat}
  {a b c l m x : Nat}

/-- A cell of a list is its root or a free piece. -/
theorem cell_cases (h : Threaded L s live kind free) (hl : l < L.maxLineSlab)
    (hc : c ∈ L.slab l :: free l) :
    c = L.slab l ∨ ∃ p k, Piece L kind c p k ∧ kind p = l ∧ live c = none := by
  rcases List.mem_cons.mp hc with hc | hc
  · exact .inl hc
  · exact .inr ((h.mem_free l hl c).mp hc)

/-- The cells of the lists are outside the live objects. -/
theorem cell_apart (h : Threaded L s live kind free) (hl : l < L.maxLineSlab)
    (hc : c ∈ L.slab l :: free l) (hb : Owned L live kind b) : b < c ∨ c + 8 ≤ b := by
  obtain ⟨a, p, k, hpiece, hlive, hlo, hhi⟩ := hb
  rcases h.cell_cases hl hc with rfl | ⟨q, j, hpiece', -, hdead⟩
  · have hs := slab_end_le hl
    have hin := hpiece.in_heap
    omega
  · have hne : a ≠ c := by
      rintro rfl
      exact hlive hdead
    have hap := hpiece.apart hpiece' hne
    have h16 := L.sixteen_le_objSize (kind q)
    omega

/-- No cell belongs to two lists. -/
theorem cell_ne (h : Threaded L s live kind free) (hl : l < L.maxLineSlab)
    (hm : m < L.maxLineSlab) (hlm : l ≠ m) {d : Nat} (hc : c ∈ L.slab l :: free l)
    (hd : d ∈ L.slab m :: free m) : d ≠ c := by
  have hsl := slab_end_le hl
  have hsm := slab_end_le hm
  rcases h.cell_cases hl hc with rfl | ⟨p, k, hpiece, hkind, -⟩
  · rcases h.cell_cases hm hd with rfl | ⟨q, j, hpiece', -, -⟩
    · simp only [Layout.slab]
      omega
    · have hin := hpiece'.in_heap
      omega
  · rcases h.cell_cases hm hd with rfl | ⟨q, j, hpiece', hkind', -⟩
    · have hin := hpiece.in_heap
      omega
    · rintro rfl
      rw [hpiece.page_eq hpiece', hkind'] at hkind
      exact hlm hkind.symm

/-- Writes outside the cells of the lists. -/
theorem congr_mem (h : Threaded L s live kind free)
    (hmem : ∀ l, l < L.maxLineSlab → ∀ c ∈ L.slab l :: free l, ∀ b, c ≤ b → b < c + 8 →
      s'.mem b = s.mem b) : Threaded L s' live kind free where
  kind_lt := h.kind_lt
  rep l hl := (h.rep l hl).other fun c hc => links_congr (hmem l hl c hc)
  mem_free := h.mem_free
  live_piece := h.live_piece

theorem rep_other {X : List Nat} (h : Threaded L s live kind free) (hm : m < L.maxLineSlab)
    (ht : Touches (cells L) X s s') (hX : ∀ c ∈ X, L.IsCell c)
    (hdisj : ∀ c ∈ X, c ∉ L.slab m :: free m) : Rep (cells L) s' (L.slab m) (free m) := by
  refine ht.rep (h.rep m hm) hX ?_
  rintro c hc d hd rfl
  exact hdisj d hc hd

/-- A cell of one list is in no other. -/
theorem cell_not_mem (h : Threaded L s live kind free) (hl : l < L.maxLineSlab)
    (hm : m < L.maxLineSlab) (hlm : l ≠ m) (hc : c ∈ L.slab l :: free l) :
    c ∉ L.slab m :: free m :=
  fun hc' => h.cell_ne hl hm hlm hc hc' rfl

theorem cells_of (h : Threaded L s live kind free) (hl : l < L.maxLineSlab) :
    ∀ c ∈ L.slab l :: free l, L.IsCell c := (h.rep l hl).cells

/-- A live object is in no list. -/
theorem live_not_mem (h : Threaded L s live kind free) {p k : Nat}
    (hpiece : Piece L kind x p k) (hlive : live x ≠ none) (hm : m < L.maxLineSlab) :
    x ∉ L.slab m :: free m := by
  intro hx
  rcases h.cell_cases hm hx with rfl | ⟨q, j, -, -, hdead⟩
  · have hs := slab_end_le hm
    have hin := hpiece.in_heap
    omega
  · exact hlive hdead

/-! ### Taking and giving back a piece -/

/-- `list_getfirst`: the first free piece of its size becomes a live object. -/
theorem take {rest : List Nat} {n : Nat} (h : Threaded L s live kind free)
    (hl : l < L.maxLineSlab) (hfree : free l = x :: rest) (hn : n ≤ L.objSize l) :
    Threaded L (listUnlink (cells L) s x) (Function.update live x (some n)) kind
      (Function.update free l rest) := by
  have hrep : Rep (cells L) s (L.slab l) ([] ++ x :: rest) := by
    rw [List.nil_append, ← hfree]
    exact h.rep l hl
  obtain ⟨p, k, hpiece, hkind, hdead⟩ := (h.mem_free l hl x).mp (by simp [hfree])
  have hxrest : x ∉ rest := (List.nodup_cons.mp hrep.nodup).1
  have hsub : ∀ c ∈ L.slab l :: ([] ++ rest), c ∈ L.slab l :: free l := by
    intro c hc
    rw [hfree]
    simp only [List.nil_append, List.mem_cons] at hc ⊢
    tauto
  refine ⟨h.kind_lt, ?_, ?_, ?_⟩
  · intro m hm
    by_cases hml : m = l
    · subst hml
      rw [Function.update_self]
      exact hrep.unlink
    · rw [Function.update_of_ne hml]
      refine h.rep_other hm hrep.unlink_touches ?_ ?_
      · exact fun c hc => h.cells_of hl c (hsub c hc)
      · exact fun c hc => h.cell_not_mem hl hm (Ne.symm hml) (hsub c hc)
  · intro m hm a
    have hold := h.mem_free m hm a
    by_cases hax : a = x
    · subst hax
      have hnot : a ∉ Function.update free l rest m := by
        by_cases hml : m = l
        · subst hml
          rwa [Function.update_self]
        · rw [Function.update_of_ne hml]
          intro hmem
          exact h.cell_not_mem hl hm (Ne.symm hml) (c := a) (by simp [hfree])
            (List.mem_cons_of_mem _ hmem)
      simp [hnot]
    · rw [Function.update_of_ne hax, ← hold]
      by_cases hml : m = l
      · subst hml
        rw [Function.update_self, hfree]
        simp [hax]
      · rw [Function.update_of_ne hml]
  · intro a m ha
    by_cases hax : a = x
    · subst hax
      rw [Function.update_self, Option.some.injEq] at ha
      subst ha
      exact ⟨p, k, hpiece, by rwa [hkind]⟩
    · rw [Function.update_of_ne hax] at ha
      exact h.live_piece a m ha

/-- `list_addfirst` of a live object: it becomes the first free piece of its
size. -/
theorem give {p k : Nat} (h : Threaded L s live kind free) (hpiece : Piece L kind x p k)
    (hlive : live x ≠ none) :
    Threaded L (listAddfirst (cells L) s (L.slab (kind p)) x) (Function.update live x none) kind
      (Function.update free (kind p) (x :: free (kind p))) := by
  have hl : kind p < L.maxLineSlab := hpiece.kind_lt
  have hnew : ∀ m, m < L.maxLineSlab → x ∉ L.slab m :: free m :=
    fun m hm => h.live_not_mem hpiece hlive hm
  have hrep := h.rep (kind p) hl
  refine ⟨h.kind_lt, ?_, ?_, ?_⟩
  · intro m hm
    by_cases hml : m = kind p
    · subst hml
      rw [Function.update_self]
      exact hrep.addfirst hpiece.isCell (hnew _ hl)
    · rw [Function.update_of_ne hml]
      refine h.rep_other hm (hrep.addfirst_touches hpiece.isCell (hnew _ hl)) ?_ ?_
      · intro c hc
        rcases List.mem_cons.mp hc with rfl | hc
        · exact hpiece.isCell
        · exact h.cells_of hl c hc
      · intro c hc
        rcases List.mem_cons.mp hc with rfl | hc
        · exact hnew m hm
        · exact h.cell_not_mem hl hm (Ne.symm hml) hc
  · intro m hm a
    have hold := h.mem_free m hm a
    by_cases hax : a = x
    · subst hax
      rw [Function.update_self]
      by_cases hml : m = kind p
      · subst hml
        rw [Function.update_self]
        exact ⟨fun _ => ⟨p, k, hpiece, rfl, rfl⟩, fun _ => by simp⟩
      · rw [Function.update_of_ne hml]
        constructor
        · exact fun hmem => absurd (List.mem_cons_of_mem _ hmem) (hnew m hm)
        · rintro ⟨q, j, hpiece', hkind', -⟩
          rw [hpiece'.page_eq hpiece] at hkind'
          exact absurd hkind'.symm hml
    · rw [Function.update_of_ne hax, ← hold]
      by_cases hml : m = kind p
      · subst hml
        rw [Function.update_self]
        simp [hax]
      · rw [Function.update_of_ne hml]
  · intro a m ha
    by_cases hax : a = x
    · subst hax
      rw [Function.update_self] at ha
      exact absurd ha (by simp)
    · rw [Function.update_of_ne hax] at ha
      exact h.live_piece a m ha

end Threaded

/-! ### Cutting a page -/

/-- The pieces of `size` bytes of a page, from the `j`-th on. -/
def piecesFrom (page size j d : Nat) : List Nat := (List.range' j d).map fun k => page + k * size

theorem mem_piecesFrom {page size j d a : Nat} :
    a ∈ piecesFrom page size j d ↔ ∃ k, j ≤ k ∧ k < j + d ∧ a = page + k * size := by
  simp only [piecesFrom, List.mem_map, List.mem_range'_1]
  constructor
  · rintro ⟨k, ⟨hlo, hhi⟩, rfl⟩
    exact ⟨k, hlo, hhi, rfl⟩
  · rintro ⟨k, hlo, hhi, rfl⟩
    exact ⟨k, ⟨hlo, hhi⟩, rfl⟩

/-- The loop appends the pieces that are left and ends. -/
theorem cutLoop_spec {L : Layout} {root size page : Nat} (hsize : 0 < size) :
    ∀ (d j fuel : Nat) (s : Kmem) (xs : List Nat), j + d = pageSize / size → d < fuel →
      Rep (cells L) s root xs →
      (∀ k, j ≤ k → k < j + d →
        L.IsCell (page + k * size) ∧ page + k * size ∉ root :: xs) →
      ∃ s', cutLoop L root size page fuel (page + j * size) s = some s' ∧
        Rep (cells L) s' root (xs ++ piecesFrom page size j d) ∧
        Touches (cells L) (root :: xs ++ piecesFrom page size j d) s s' := by
  intro d
  induction d with
  | zero =>
    intro j fuel s xs hj hfuel hrep _
    obtain ⟨fuel, rfl⟩ : ∃ n, fuel = n + 1 := ⟨fuel - 1, by omega⟩
    have hend : ¬ page + j * size + size ≤ page + pageSize := by
      have hlt := Nat.lt_div_mul_add hsize (a := pageSize)
      rw [← hj, Nat.add_zero] at hlt
      omega
    refine ⟨s, ?_, by simpa [piecesFrom] using hrep, Touches.refl⟩
    rw [cutLoop, if_neg hend]
  | succ d ih =>
    intro j fuel s xs hj hfuel hrep hpieces
    obtain ⟨fuel, rfl⟩ : ∃ n, fuel = n + 1 := ⟨fuel - 1, by omega⟩
    have hroom : page + j * size + size ≤ page + pageSize := by
      have hmul : (j + 1) * size ≤ pageSize / size * size :=
        Nat.mul_le_mul_right _ (by omega)
      have hle := Nat.div_mul_le_self pageSize size
      rw [Nat.succ_mul] at hmul
      omega
    obtain ⟨hcell, hnew⟩ := hpieces j (Nat.le_refl _) (by omega)
    have hrep' := hrep.addlast hcell hnew
    have hstep : page + j * size + size = page + (j + 1) * size := by
      rw [Nat.succ_mul]
      omega
    have hnext : ∀ k, j + 1 ≤ k → k < j + 1 + d → L.IsCell (page + k * size) ∧
        page + k * size ∉ root :: (xs ++ [page + j * size]) := by
      intro k hlo hhi
      obtain ⟨hc, hn⟩ := hpieces k (by omega) (by omega)
      refine ⟨hc, ?_⟩
      have hne : page + k * size ≠ page + j * size := by
        have hmul : (j + 1) * size ≤ k * size := Nat.mul_le_mul_right _ hlo
        rw [Nat.succ_mul] at hmul
        omega
      simp only [List.mem_cons, List.mem_append, not_or] at hn ⊢
      exact ⟨hn.1, hn.2, hne, by simp⟩
    obtain ⟨s', hloop, hrep'', htouch⟩ :=
      ih (j + 1) fuel _ (xs ++ [page + j * size]) (by omega) (by omega) hrep' hnext
    have hlist : xs ++ [page + j * size] ++ piecesFrom page size (j + 1) d
        = xs ++ piecesFrom page size j (d + 1) := by
      simp [piecesFrom, List.range'_succ]
    refine ⟨s', ?_, hlist ▸ hrep'', ?_⟩
    · rw [cutLoop, if_pos hroom, hstep]
      exact hloop
    · have hlater : Touches (cells L) (root :: (xs ++ piecesFrom page size j (d + 1)))
          (listAddlast (cells L) s root (page + j * size)) s' := by
        rw [← hlist]
        exact htouch
      refine Touches.trans ((hrep.addlast_touches hcell hnew).mono ?_) hlater
      intro a ha
      simp only [List.mem_cons, List.mem_append, mem_piecesFrom] at ha ⊢
      rcases ha with ha | ha | ha
      · exact .inr ⟨j, Nat.le_refl _, by omega, ha⟩
      · exact .inl (.inl ha)
      · exact .inl (.inr ha)

namespace Threaded

variable {L : Layout} {s s' : Kmem} {live : Live} {kind : Kinds} {free : Nat → List Nat}
  {p l : Nat}

/-- Pieces of other pages are not concerned by the kind of page `p`. -/
theorem piece_update_iff {a q k : Nat} (hq : q ≠ p) :
    Piece L (Function.update kind p l) a q k ↔ Piece L kind a q k := by
  have hkind : Function.update kind p l q = kind q := Function.update_of_ne hq _ _
  exact ⟨fun h => h.congr hkind.symm, fun h => h.congr hkind⟩

/-- A piece of a page that has been cut. -/
theorem piece_cut {k : Nat} (hp : p < L.nbPages) (hl : l < L.maxLineSlab)
    (hk : k < L.perPage l) :
    Piece L (Function.update kind p l) (L.pageAddr p + k * L.objSize l) p k := by
  refine ⟨hp, ?_, ?_, ?_⟩ <;> rw [Function.update_self]
  · exact hl
  · exact hk

/-- The only live object of a page given out whole is the page. -/
theorem live_apart {a n : Nat} (h : Threaded L s live kind free) (hkind : kind p = 0)
    (ha : Function.update live (L.pageAddr p) none a = some n) :
    ∃ q k, Piece L kind a q k ∧ q ≠ p ∧ n ≤ L.objSize (kind q) := by
  have hne : a ≠ L.pageAddr p := by
    rintro rfl
    rw [Function.update_self] at ha
    exact absurd ha (by simp)
  rw [Function.update_of_ne hne] at ha
  obtain ⟨q, k, hpiece, hn⟩ := h.live_piece a n ha
  refine ⟨q, k, hpiece, ?_, hn⟩
  rintro rfl
  exact hne (hpiece.of_kind_zero hkind).2

/-- What the lists hold when page `p` is cut: its pieces, and what they held. -/
theorem mem_free_cut {m : Nat} (h : Threaded L s live kind free) (hp : p < L.nbPages)
    (hkind : kind p = 0) (hlive : live (L.pageAddr p) ≠ none) (hl : l < L.maxLineSlab)
    (hempty : free l = []) (hm : m < L.maxLineSlab) (a : Nat) :
    a ∈ Function.update free l (piecesFrom (L.pageAddr p) (L.objSize l) 0 (L.perPage l)) m ↔
      ∃ q k, Piece L (Function.update kind p l) a q k ∧ Function.update kind p l q = m ∧
        Function.update live (L.pageAddr p) none a = none := by
  have hwhole : Piece L kind (L.pageAddr p) p 0 := piece_of_page hp hkind
  have hother : ∀ {a q k}, Piece L kind a q k → q ≠ p → a ≠ L.pageAddr p := by
    rintro a q k hpiece hqp rfl
    exact hqp (hpiece.page_eq hwhole)
  by_cases hml : m = l
  · subst hml
    rw [Function.update_self, mem_piecesFrom]
    constructor
    · rintro ⟨k, -, hk, rfl⟩
      rw [Nat.zero_add] at hk
      have hpiece : Piece L (Function.update kind p m) _ p k := piece_cut hp hl hk
      refine ⟨p, k, hpiece, Function.update_self .., ?_⟩
      by_contra hsome
      obtain ⟨n, hn⟩ := Option.ne_none_iff_exists'.mp hsome
      obtain ⟨q, j, hpiece', hqp, -⟩ := h.live_apart hkind hn
      rw [← hpiece'.pageIdx, hpiece.pageIdx] at hqp
      exact hqp rfl
    · rintro ⟨q, k, hpiece, hkq, hdead'⟩
      by_cases hqp : q = p
      · subst hqp
        have hk := hpiece.index_lt
        have ha := hpiece.addr
        rw [Function.update_self] at hk ha
        exact ⟨k, Nat.zero_le _, by omega, ha⟩
      · have hpiece' := (piece_update_iff hqp).mp hpiece
        rw [Function.update_of_ne hqp] at hkq
        rw [Function.update_of_ne (hother hpiece' hqp)] at hdead'
        have hmem := (h.mem_free m hm a).mpr ⟨q, k, hpiece', hkq, hdead'⟩
        rw [hempty] at hmem
        exact absurd hmem (by simp)
  · rw [Function.update_of_ne hml, h.mem_free m hm a]
    constructor
    · rintro ⟨q, k, hpiece, hkq, hdead'⟩
      have hqp : q ≠ p := by
        rintro rfl
        rw [(hpiece.of_kind_zero hkind).2] at hdead'
        exact hlive hdead'
      refine ⟨q, k, (piece_update_iff hqp).mpr hpiece, ?_, ?_⟩
      · rwa [Function.update_of_ne hqp]
      · rwa [Function.update_of_ne (hother hpiece hqp)]
    · rintro ⟨q, k, hpiece, hkq, hdead'⟩
      have hqp : q ≠ p := by
        rintro rfl
        rw [Function.update_self] at hkq
        exact hml hkq.symm
      have hpiece' := (piece_update_iff hqp).mp hpiece
      rw [Function.update_of_ne hqp] at hkq
      rw [Function.update_of_ne (hother hpiece' hqp)] at hdead'
      exact ⟨q, k, hpiece', hkq, hdead'⟩

/-- A page given out whole is cut into the free pieces of `Slab[l]`, which was
empty. -/
theorem cut (h : Threaded L s live kind free) (hp : p < L.nbPages) (hkind : kind p = 0)
    (hlive : live (L.pageAddr p) ≠ none) (hl : l < L.maxLineSlab) (hl0 : l ≠ 0)
    (hempty : free l = []) :
    ∃ s', cutLoop L (L.slab l) (L.objSize l) (L.pageAddr p) (pageSize + 1) (L.pageAddr p) s
        = some s' ∧
      Threaded L s' (Function.update live (L.pageAddr p) none) (Function.update kind p l)
        (Function.update free l (piecesFrom (L.pageAddr p) (L.objSize l) 0 (L.perPage l))) ∧
      s'.page = s.page ∧
      ∀ b, Owned L (Function.update live (L.pageAddr p) none) kind b → s'.mem b = s.mem b := by
  have hsize := L.objSize_pos l
  have hroot := h.rep l hl
  rw [hempty] at hroot
  -- the new pieces, as pieces of the divided page
  have hnew : ∀ k, k < L.perPage l →
      Piece L (Function.update kind p l) (L.pageAddr p + k * L.objSize l) p k :=
    fun _ hk => piece_cut hp hl hk
  -- they lie in the page, which is in no list
  have hfar : ∀ k, k < L.perPage l → ∀ m, m < L.maxLineSlab →
      L.pageAddr p + k * L.objSize l ∉ L.slab m :: free m := by
    intro k hk m hm hmem
    have hin := (hnew k hk).in_heap
    have hs := slab_end_le hm
    rcases h.cell_cases hm hmem with he | ⟨q, j, hpiece, -, hdead⟩
    · omega
    · have hqp : q = p := by rw [← hpiece.pageIdx, (hnew k hk).pageIdx]
      subst hqp
      rw [(hpiece.of_kind_zero hkind).2] at hdead
      exact hlive hdead
  have hcells : ∀ k, 0 ≤ k → k < 0 + L.perPage l →
      L.IsCell (L.pageAddr p + k * L.objSize l) ∧
        L.pageAddr p + k * L.objSize l ∉ [L.slab l] := by
    intro k _ hk
    rw [Nat.zero_add] at hk
    refine ⟨(hnew k hk).isCell, ?_⟩
    have := hfar k hk l hl
    rwa [hempty] at this
  have hfuel : L.perPage l < pageSize + 1 := by
    have := L.perPage_le l
    simp only [pageSize]
    omega
  obtain ⟨s', hloop, hrep, htouch⟩ := cutLoop_spec hsize (L.perPage l) 0 (pageSize + 1) s []
    (Nat.zero_add _) hfuel hroot hcells
  rw [Nat.zero_mul, Nat.add_zero] at hloop
  rw [List.nil_append] at hrep
  have hX : ∀ c ∈ L.slab l :: [] ++ piecesFrom (L.pageAddr p) (L.objSize l) 0 (L.perPage l),
      c = L.slab l ∨ ∃ k, k < L.perPage l ∧ c = L.pageAddr p + k * L.objSize l := by
    intro c hc
    simp only [List.cons_append, List.nil_append, List.mem_cons, mem_piecesFrom] at hc
    rcases hc with hc | ⟨k, -, hk, rfl⟩
    · exact .inl hc
    · exact .inr ⟨k, by omega, rfl⟩
  refine ⟨s', hloop, ⟨?_, ?_, fun m hm => h.mem_free_cut hp hkind hlive hl hempty hm, ?_⟩,
    ?_, ?_⟩
  · intro q hq
    by_cases hqp : q = p
    · subst hqp
      rwa [Function.update_self]
    · rw [Function.update_of_ne hqp]
      exact h.kind_lt q hq
  · intro m hm
    by_cases hml : m = l
    · subst hml
      rwa [Function.update_self]
    · rw [Function.update_of_ne hml]
      refine h.rep_other hm htouch ?_ ?_
      · intro c hc
        rcases hX c hc with rfl | ⟨k, hk, rfl⟩
        · exact slab_isCell hl
        · exact (hnew k hk).isCell
      · intro c hc
        rcases hX c hc with rfl | ⟨k, hk, rfl⟩
        · exact h.cell_not_mem hl hm (Ne.symm hml) (by simp)
        · exact hfar k hk m hm
  · intro a n ha
    obtain ⟨q, k, hpiece, hqp, hn⟩ := h.live_apart hkind ha
    refine ⟨q, k, (piece_update_iff hqp).mpr hpiece, ?_⟩
    rwa [Function.update_of_ne hqp]
  · exact htouch _ _ fun c _ => outside_page c
  · rintro b ⟨a, q, k, hpiece, halive, hlo, hhi⟩
    obtain ⟨n, hn⟩ := Option.ne_none_iff_exists'.mp halive
    obtain ⟨q', k', hpiece', hqp, -⟩ := h.live_apart hkind hn
    rw [← hpiece.page_eq hpiece'] at hqp
    refine htouch _ (fun s => s.mem b) fun c hc => outside_byte ?_
    have hahi := hpiece.hi
    have halo := hpiece.lo
    have hin := hpiece.in_heap
    rcases hX c hc with rfl | ⟨j, hj, rfl⟩
    · have hs := slab_end_le hl
      omega
    · have hclo := (hnew j hj).lo
      have hchi := (hnew j hj).hi
      have h16 := L.sixteen_le_objSize (Function.update kind p l p)
      simp only [Layout.pageAddr, pageSize] at *
      omega

/-! ### Putting a page together again -/

/-- The fuel of the loop: a list has no more items than the heap has lines. -/
theorem length_free_le (h : Threaded L s live kind free) (hl : l < L.maxLineSlab) :
    (free l).length < L.nbPages * 256 + 1 := by
  have hsub : free l ⊆ (List.range (L.nbPages * 256)).map fun i => L.kmb + 16 * i := by
    intro a ha
    obtain ⟨q, k, hpiece, -, -⟩ := (h.mem_free l hl a).mp ha
    have hin := hpiece.in_heap
    have hpos := L.objSize_pos (kind q)
    have h16 := L.sixteen_dvd_line.trans hpiece.line_dvd
    have hkmb : 16 ∣ L.kmb := (show 16 ∣ pageSize by decide).trans L.kmb_aligned
    simp only [Layout.kme, pageSize] at hin
    refine List.mem_map.mpr ⟨(a - L.kmb) / 16, List.mem_range.mpr (by omega), by omega⟩
  have hle := (List.subperm_of_subset (h.rep l hl).nodup hsub).length_le
  rw [List.length_map, List.length_range] at hle
  omega

/-- The body of the loop of `kfree` takes the pieces of page `p` out of the
list. -/
theorem foreach_unlink (h : Threaded L s live kind free) (hl : l < L.maxLineSlab) :
    ∃ s', listForeach (cells L) (L.nbPages * 256 + 1)
        (fun s item => if L.pageIdx item = p then listUnlink (cells L) s item else s)
        s (L.slab l) = some s' ∧
      Rep (cells L) s' (L.slab l) ((free l).filter fun a => L.pageIdx a ≠ p) ∧
      Touches (cells L) (L.slab l :: free l) s s' := by
  have hspec := listForeach_spec
    (fun s item => if L.pageIdx item = p then listUnlink (cells L) s item else s)
    (I := fun kept todo s' =>
      kept ++ todo.filter (fun a => L.pageIdx a ≠ p) = (free l).filter (fun a => L.pageIdx a ≠ p) ∧
      (∀ a ∈ kept ++ todo, a ∈ free l) ∧ Touches (cells L) (L.slab l :: free l) s s')
    (h.rep l hl) (h.length_free_le hl) ⟨by simp, by simp, Touches.refl⟩ ?_
  · obtain ⟨s', kept, hloop, hrep, hkept, -, htouch⟩ := hspec
    rw [List.filter_nil, List.append_nil] at hkept
    exact ⟨s', hloop, hkept ▸ hrep, htouch⟩
  · rintro kept x rest s₁ hrep ⟨hkept, hsub, htouch⟩
    by_cases hx : L.pageIdx x = p
    · refine ⟨kept, ?_, ?_, ?_, ?_⟩
      · simp only [hx, if_true]
        exact hrep.unlink
      · simpa [hx] using hkept
      · intro a ha
        refine hsub a ?_
        simp only [List.mem_append, List.mem_cons] at ha ⊢
        tauto
      · simp only [hx, if_true]
        refine htouch.trans (hrep.unlink_touches.mono ?_)
        intro a ha
        rcases List.mem_cons.mp ha with rfl | ha
        · simp
        · refine List.mem_cons_of_mem _ (hsub a ?_)
          simp only [List.mem_append, List.mem_cons] at ha ⊢
          tauto
    · refine ⟨kept ++ [x], ?_, ?_, ?_, ?_⟩
      · simpa [hx] using hrep
      · simpa [hx] using hkept
      · simpa using hsub
      · simpa only [hx, if_false] using htouch

/-- A page without live objects leaves its list and is whole again. -/
theorem uncut (h : Threaded L s live kind free) (hp : p < L.nbPages) (hl0 : kind p ≠ 0)
    (hdead : ∀ a k, Piece L kind a p k → live a = none) :
    ∃ s', listForeach (cells L) (L.nbPages * 256 + 1)
        (fun s item => if L.pageIdx item = p then listUnlink (cells L) s item else s)
        s (L.slab (kind p)) = some s' ∧
      Threaded L s' (Function.update live (L.pageAddr p) (some pageSize))
        (Function.update kind p 0)
        (Function.update free (kind p) ((free (kind p)).filter fun a => L.pageIdx a ≠ p)) ∧
      s'.page = s.page ∧ ∀ b, Owned L live kind b → s'.mem b = s.mem b := by
  have hl := h.kind_lt p hp
  obtain ⟨s', hloop, hrep, htouch⟩ := h.foreach_unlink (p := p) hl
  have hwhole : Piece L (Function.update kind p 0) (L.pageAddr p) p 0 :=
    piece_of_page hp (Function.update_self ..)
  have hother : ∀ {a q k}, Piece L kind a q k → q ≠ p → a ≠ L.pageAddr p := by
    rintro a q k hpiece hqp rfl
    exact hqp (((piece_update_iff hqp).mpr hpiece).page_eq hwhole)
  refine ⟨s', hloop, ⟨?_, ?_, ?_, ?_⟩, ?_, ?_⟩
  · intro q hq
    by_cases hqp : q = p
    · subst hqp
      rw [Function.update_self]
      exact L.maxLineSlab_pos
    · rw [Function.update_of_ne hqp]
      exact h.kind_lt q hq
  · intro m hm
    by_cases hml : m = kind p
    · subst hml
      rwa [Function.update_self]
    · rw [Function.update_of_ne hml]
      exact h.rep_other hm htouch (h.cells_of hl)
        fun c hc => h.cell_not_mem hl hm (Ne.symm hml) hc
  · intro m hm a
    -- on both sides the pieces of the other pages
    have hfree : a ∈ Function.update free (kind p)
        ((free (kind p)).filter fun a => L.pageIdx a ≠ p) m ↔
        a ∈ free m ∧ L.pageIdx a ≠ p := by
      by_cases hml : m = kind p
      · subst hml
        rw [Function.update_self, List.mem_filter]
        simp
      · rw [Function.update_of_ne hml]
        refine ⟨fun ha => ⟨ha, ?_⟩, And.left⟩
        obtain ⟨q, k, hpiece, hkq, -⟩ := (h.mem_free m hm a).mp ha
        rw [hpiece.pageIdx]
        rintro rfl
        exact hml hkq.symm
    rw [hfree, h.mem_free m hm a]
    constructor
    · rintro ⟨⟨q, k, hpiece, hkq, hnone⟩, hqp⟩
      rw [hpiece.pageIdx] at hqp
      refine ⟨q, k, (piece_update_iff hqp).mpr hpiece, ?_, ?_⟩
      · rwa [Function.update_of_ne hqp]
      · rwa [Function.update_of_ne (hother hpiece hqp)]
    · rintro ⟨q, k, hpiece, hkq, hnone⟩
      have hqp : q ≠ p := by
        rintro rfl
        rw [(hpiece.of_kind_zero (Function.update_self ..)).2, Function.update_self] at hnone
        exact absurd hnone (by simp)
      have hpiece' := (piece_update_iff hqp).mp hpiece
      rw [Function.update_of_ne hqp] at hkq
      rw [Function.update_of_ne (hother hpiece' hqp)] at hnone
      exact ⟨⟨q, k, hpiece', hkq, hnone⟩, by rwa [hpiece'.pageIdx]⟩
  · intro a n ha
    by_cases hap : a = L.pageAddr p
    · subst hap
      rw [Function.update_self, Option.some.injEq] at ha
      subst ha
      refine ⟨p, 0, hwhole, ?_⟩
      rw [Function.update_self, Layout.objSize, if_pos rfl]
    · rw [Function.update_of_ne hap] at ha
      obtain ⟨q, k, hpiece, hn⟩ := h.live_piece a n ha
      have hqp : q ≠ p := by
        rintro rfl
        rw [hdead a k hpiece] at ha
        exact absurd ha (by simp)
      refine ⟨q, k, (piece_update_iff hqp).mpr hpiece, ?_⟩
      rwa [Function.update_of_ne hqp]
  · exact htouch _ _ fun c _ => outside_page c
  · intro b hb
    exact htouch _ (fun s => s.mem b) fun c hc => outside_byte (h.cell_apart hl hc hb)

end Threaded

end Ko6.Kernel
