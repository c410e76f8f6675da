import Ko6.Ulib.MemoryRuns

set_option autoImplicit false

/-!
# Ulib: `malloc` finds the free space

When no free block is long enough, `malloc` merges the free blocks and looks again.  In a
heap below 0x80000000 `merge` leaves no two free blocks side by side, and the free bytes
are the same as before: a run of free blocks that was long enough is one block after it.
Above, `merge` may follow the sizes past the end of the heap and never come to `Heap.end`.
-/

namespace Ko6.Ulib

open Ko6.Lib

/-- `a` is a byte of a free block among `bs`. -/
def FreeByte (m : Mem) (bs : List Nat) (a : Nat) : Prop :=
  ∃ b ∈ bs, full m b = 0 ∧ b ≤ a ∧ a < nextBlock m b

/-- `zs` are adjacent free blocks among `bs`. -/
def FreeRun (m : Mem) (bs zs : List Nat) : Prop := zs <:+: bs ∧ ∀ b ∈ zs, full m b = 0

/-- The bytes of blocks, with their informations. -/
def blockBytes (m : Mem) (zs : List Nat) : Nat := (zs.map fun b => 4 * blockSize m b).sum

/-- `merge` turns the blocks `bs` into `bs'`: full blocks stay as they are, the free space is
the same, and no two free blocks are left side by side. -/
structure Merges (A : Area) (m : Mem) (bs : List Nat) (m' : Mem) (bs' : List Nat) : Prop where
  tiles : Tiles (nextBlock m') A.beg bs' A.end_
  kept : ∀ b ∈ bs, full m b = 1 → b ∈ bs' ∧ ∀ a, b ≤ a → a < nextBlock m b → m' a = m a
  free : ∀ a, FreeByte m' bs' a ↔ FreeByte m bs a
  parted : ∀ b ∈ bs', Parted A m' b

/-- The heap is a row of blocks, `merge` ends and merges them, and `malloc` fails only when
no run of free blocks is long enough. -/
def HeapComplete (A : Area) (u : User) (live : Live) : Prop :=
  ∃ bs, Tiles (nextBlock u.mem) A.beg bs A.end_ ∧
    (∀ b ∈ bs, full u.mem b = 1 ↔ live (b + 4) ≠ none) ∧
    (∃ m bs', merge A.heap (A.heap.words + 1) A.beg u.mem = some m ∧
      Merges A u.mem bs m bs') ∧
    ∀ size, size ≤ 0x7FFFFF00 → ∃ p u', malloc A.heap size u = some (p, u') ∧
      (p = 0 → ∀ zs, FreeRun u.mem bs zs → blockBytes u.mem zs < A.lineCeil (size + 4))

/-! ## Free bytes -/

/-- `a` is a byte of an allocated block. -/
def Taken (m : Mem) (live : Live) (a : Nat) : Prop :=
  ∃ b, live (b + 4) ≠ none ∧ b ≤ a ∧ a < nextBlock m b

section
variable {A : Area} {m m' : Mem} {u u₀ : User} {live : Live} {bs bs' xs ys zs : List Nat}
  {a b s t : Nat}

/-- A byte of the heap is free when it is not taken. -/
theorem HeapInv.freeByte_iff (h : HeapInv A m live bs) :
    FreeByte m bs a ↔ A.beg ≤ a ∧ a < A.end_ ∧ ¬ Taken m live a := by
  constructor
  · rintro ⟨b, hb, hfree, hlo, hhi⟩
    have hbeg := h.tiles.lo b hb
    have hend := (h.tiles.hi b hb).2
    refine ⟨by omega, by omega, ?_⟩
    rintro ⟨c, hc, hlo', hhi'⟩
    have hne : b ≠ c := by
      rintro rfl
      exact hc ((h.full_eq_zero hb).mp hfree)
    have hap := h.tiles.apart hb (h.live_mem hc) hne
    omega
  · rintro ⟨hlo, hhi, hfree⟩
    obtain ⟨b, hb, hba, hab⟩ := h.tiles.exists_mem hlo hhi
    refine ⟨b, hb, (h.full_eq_zero hb).mpr ?_, hba, hab⟩
    by_contra hlive
    exact hfree ⟨b, hlive, hba, hab⟩

/-- The information of an allocated block is kept with it. -/
theorem HeapInv.sameInfo_kept (h : HeapInv A m live bs) (hk : Keeps live m m')
    (hlive : live (b + 4) ≠ none) : SameInfo m m' b := by
  have hfour := h.four_le (h.live_mem hlive)
  exact sameInfo_of_bytes fun a hlo hhi => hk b hlive a hlo (by omega)

theorem HeapInv.taken_iff (h : HeapInv A m live bs) (hk : Keeps live m m') :
    Taken m' live a ↔ Taken m live a := by
  unfold Taken
  refine exists_congr fun b => and_congr_right fun hlive => ?_
  rw [(h.sameInfo_kept hk hlive).next]

/-- A heap with the same allocated blocks and no two free ones side by side is the merged
one. -/
theorem HeapInv.merges (h : HeapInv A m live bs) (hinv : HeapInv A m' live bs')
    (hk : Keeps live m m') (hparted : ∀ b ∈ bs', Parted A m' b) : Merges A m bs m' bs' := by
  refine ⟨hinv.tiles, fun b hb hfull => ?_, fun a => ?_, hparted⟩
  · have hlive := (h.full b hb).mp hfull
    exact ⟨hinv.live_mem hlive, hk b hlive⟩
  · rw [hinv.freeByte_iff, h.freeByte_iff, h.taken_iff hk]

/-! ## Runs of free blocks -/

/-- The bytes of neighbours are those from the first to the last. -/
theorem tiles_blockBytes (h : Tiles (nextBlock m) s zs t) : s + blockBytes m zs = t := by
  induction h with
  | nil s => rfl
  | @cons s t zs _ _ ih =>
    have hsum : blockBytes m (s :: zs) = 4 * blockSize m s + blockBytes m zs := by
      unfold blockBytes
      rw [List.map_cons, List.sum_cons]
    rw [hsum, ← Nat.add_assoc]
    exact ih

/-- A run of free blocks is an interval of free bytes. -/
theorem FreeRun.interval (h : FreeRun m bs zs) (htiles : Tiles (nextBlock m) A.beg bs A.end_) :
    ∃ s, A.beg ≤ s ∧ s + blockBytes m zs ≤ A.end_ ∧
      ∀ a, s ≤ a → a < s + blockBytes m zs → FreeByte m bs a := by
  obtain ⟨⟨xs, ys, rfl⟩, hfree⟩ := h
  obtain ⟨t, hxz, hys⟩ := htiles.split (xs ++ zs)
  obtain ⟨s, hxs, hzs⟩ := hxz.split xs
  have ht := tiles_blockBytes hzs
  refine ⟨s, hxs.le, ht ▸ hys.le, fun a hlo hhi => ?_⟩
  obtain ⟨b, hb, hba, hab⟩ := hzs.exists_mem hlo (ht ▸ hhi)
  refine ⟨b, ?_, hfree b hb, hba, hab⟩
  exact List.mem_append_left _ (List.mem_append_right _ hb)

/-- An interval of free bytes lies in one block of a merged heap. -/
theorem HeapInv.interval_mem (h : HeapInv A m live bs) (hparted : ∀ b ∈ bs, Parted A m b)
    (hs : A.beg ≤ s) (hst : s < t) (ht : t ≤ A.end_)
    (hfree : ∀ a, s ≤ a → a < t → FreeByte m bs a) :
    ∃ b ∈ bs, Ulib.full m b = 0 ∧ t - s ≤ 4 * blockSize m b := by
  have hof : ∀ {b a}, b ∈ bs → b ≤ a → a < nextBlock m b → FreeByte m bs a → Ulib.full m b = 0 := by
    rintro b a hb hlo hhi ⟨c, hc, hfull, hlo', hhi'⟩
    by_cases hbc : b = c
    · rwa [hbc]
    · have hap := h.tiles.apart hb hc hbc
      omega
  have hnext : ∀ b ∈ bs, nextBlock m b ∈ bs →
      (∃ a, b ≤ a ∧ a < nextBlock m b ∧ FreeByte m bs a) → ¬ FreeByte m bs (nextBlock m b) := by
    rintro b hb hmem ⟨a, hlo, hhi, ha⟩ hfirst
    have hlt := h.tiles.hi _ hmem
    have hfull := hof hmem (Nat.le_refl _) hlt.1 hfirst
    rcases hparted b hb (hof hb hlo hhi ha) with hend | hne
    · omega
    · exact hne hfull
  obtain ⟨b, hb, hlo, hhi⟩ := h.tiles.interval_mem hs hst ht hfree hnext
  have hsize : nextBlock m b = b + 4 * blockSize m b := rfl
  exact ⟨b, hb, hof hb hlo (by omega) (hfree s (Nat.le_refl s) hst), by omega⟩

/-- An interval of free bytes is in one free block after merging. -/
theorem HeapInv.interval_merged (h : HeapInv A m live bs) (hm : HeapInv.Merged A m live m' bs')
    (hs : A.beg ≤ s) (hst : s < t) (ht : t ≤ A.end_)
    (hfree : ∀ a, s ≤ a → a < t → FreeByte m bs a) :
    ∃ b ∈ bs', Ulib.full m' b = 0 ∧ t - s ≤ 4 * blockSize m' b := by
  refine hm.toHeapInv.interval_mem hm.parted hs hst ht fun a hlo hhi => ?_
  rw [hm.toHeapInv.freeByte_iff, h.taken_iff hm.keeps, ← h.freeByte_iff]
  exact hfree a hlo hhi

theorem HeapInv.complete (h : HeapInv A u.mem live bs) : HeapComplete A u live := by
  refine ⟨bs, h.tiles, h.full, ?_, fun size hsize => ?_⟩
  · have hlen := h.length_le
    obtain ⟨m, bs', heq, hinv, hk, hparted⟩ := HeapInv.merge_spec (A.heap.words + 1) [] bs u.mem
      A.beg (by omega) h h.tiles fun x hx => absurd hx List.not_mem_nil
    exact ⟨m, bs', heq, h.merges hinv hk hparted⟩
  · rcases h.malloc_cases size with ⟨u', bs', heq, hmerged, hnone⟩ | ⟨m', bs', r, -, -, -, -, -, heq⟩
    · refine ⟨0, u', heq, fun _ zs hrun => ?_⟩
      by_contra hge
      have hceil := A.le_lineCeil (size + 4)
      obtain ⟨s, hs, ht, hfree⟩ := hrun.interval h.tiles
      obtain ⟨b, hb, hb0, hle⟩ := h.interval_merged hmerged hs (by omega) ht hfree
      have hshort : blockSize u'.mem b < needed A.heap size := by
        rcases hnone b hb with hfull | hshort
        · rw [hb0] at hfull
          exact absurd hfull (by decide)
        · exact hshort
      have hsmall := A.small
      have hne : A.beg < A.end_ := by omega
      have hline := A.line_le hne
      rcases A.needed_cases hne (A.request_lt hne hsize) with hneed | ⟨hbig, -⟩
      · omega
      · omega
    · exact ⟨r + 4, _, heq, fun h0 => absurd h0 (by omega)⟩

/-- `malloc` and `merge` keep their promise in every run if and only if the heap is empty
or ends below 0x80000000. -/
theorem heapRun_complete_iff (A : Area) :
    (∀ u₀ u live, HeapRun A u₀ u live → HeapComplete A u live) ↔
      (A.beg = A.end_ ∨ A.end_ < 2 ^ 31) := by
  constructor
  · intro hall
    rcases Nat.eq_or_lt_of_le A.beg_le with heq | hne
    · exact .inl heq
    rcases Nat.lt_or_ge A.end_ (2 ^ 31) with hlow | hhigh
    · exact .inr hlow
    obtain ⟨u, live, hrun, huntiled⟩ := heapRun_untiled hne hhigh { mem := fun _ => 0, errno := 0 }
    obtain ⟨bs, htiles, -⟩ := hall _ u live hrun
    exact absurd htiles (huntiled bs)
  · intro hlow u₀ u live hrun
    obtain ⟨bs, hinv⟩ := hrun.inv hlow
    exact hinv.complete

/-! ## A loop that does not end -/

/-- A free block of size 0 is glued for ever. -/
theorem glue_stuck {H : Heap} {ptr next : Nat} (fuel : Nat)
    (hptr : ptrAdd ptr (blockSize m ptr) = next) (hend : next ≠ H.end_)
    (hfull : full m next = 0) (hsize : blockSize m next = 0)
    (hap : next + 4 ≤ ptr ∨ ptr + 4 ≤ next) : glue H ptr fuel m = none := by
  induction fuel generalizing m with
  | zero => rfl
  | succ fuel ih =>
    have hsame : SameInfo m (setSize m ptr (BitVec.ofNat 24 (blockSize m ptr + 0))) next :=
      only_setSize.sameInfo hap
    have hkept : blockSize (setSize m ptr (BitVec.ofNat 24 (blockSize m ptr + 0))) ptr =
        blockSize m ptr := by
      rw [blockSize_setSize, BitVec.toNat_ofNat]
      exact Nat.mod_eq_of_lt blockSize_lt
    unfold glue
    simp only [hptr, hsize]
    rw [if_pos ⟨hend, hfull⟩]
    refine ih ?_ ?_ ?_
    · rw [hkept, hptr]
    · rw [hsame.full, hfull]
    · rw [hsame.size, hsize]

end

/-- The user's memory before `malloc_init`. -/
def zeroUser : User := { mem := fun _ => 0, errno := 0 }

/-- After `malloc (0x3FFC)` in the heap of `qemu-virt-riscv`, `merge` jumps over `Heap.end`
and never ends. -/
theorem merge_past_heap_end : ∃ u live, HeapRun qemuHeap zeroUser u live ∧
    (∀ fuel, merge qemuHeap.heap fuel qemuHeap.beg u.mem = none) ∧
    (∀ fuel, glue qemuHeap.heap 0x81114040 fuel u.mem = none) ∧
    ¬ HeapComplete qemuHeap u live := by
  obtain ⟨m, hinit, -⟩ := mallocInit_spec qemuHeap zeroUser
  have hall : ((mallocInit qemuHeap.line qemuHeap.beg qemuHeap.end_ zeroUser).bind fun r =>
      malloc r.1 0x3FFC r.2).map (fun r =>
        ((full r.2.mem 0x81110000, blockSize r.2.mem 0x81110000),
          (full r.2.mem 0x81114040, blockSize r.2.mem 0x81114040),
          (full r.2.mem 0x85114000, blockSize r.2.mem 0x85114000))) =
      some ((1, 4112), (0, 16777200), (0, 0)) := by
    decide +kernel
  rw [hinit, Option.bind_some] at hall
  obtain ⟨⟨p, u⟩, hmalloc, hfacts⟩ := Option.map_eq_some_iff.mp hall
  simp only [Prod.mk.injEq] at hfacts
  obtain ⟨⟨hfull, hsize⟩, ⟨hfree, hrest⟩, hfar⟩ := hfacts
  have hglue : ∀ fuel, glue qemuHeap.heap 0x81114040 fuel u.mem = none := fun fuel =>
    glue_stuck fuel (by rw [hrest]; rfl) (by decide) hfar.1 hfar.2 (by decide)
  have hmerge : ∀ fuel, merge qemuHeap.heap fuel qemuHeap.beg u.mem = none := by
    have hfirst : mergeBlock qemuHeap.heap 0x81110000 u.mem = some u.mem := by
      unfold mergeBlock
      rw [if_neg (by rw [hfull]; decide)]
    have hsecond : mergeBlock qemuHeap.heap 0x81114040 u.mem = none := by
      unfold mergeBlock
      rw [if_pos hfree, hglue]
    have hnext : ptrAdd 0x81110000 (blockSize u.mem 0x81110000) = 0x81114040 := by
      rw [hsize]
      rfl
    have hjump : ∀ fuel, merge qemuHeap.heap fuel 0x81114040 u.mem = none := by
      rintro (_ | fuel)
      · rfl
      · unfold merge
        rw [if_neg (by decide), hsecond]
        rfl
    rintro (_ | fuel)
    · rfl
    · unfold merge
      rw [if_neg (by decide)]
      simp only [show qemuHeap.beg = 0x81110000 from rfl, hfirst, Option.bind_eq_bind,
        Option.bind_some, hnext, hjump]
  refine ⟨u, _, (HeapRun.init hinit).malloc (by decide) hmalloc, hmerge, hglue, ?_⟩
  rintro ⟨bs, -, -, ⟨m', bs', hsome, -⟩, -⟩
  rw [hmerge] at hsome
  exact absurd hsome (by simp)

end Ko6.Ulib
