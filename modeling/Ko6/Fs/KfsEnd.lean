import Ko6.Fs.KfsCells

set_option autoImplicit false

/-!
# Fs: the end of a file of KFS

`kfs_page` compares the page with `size >> 12`, which is the number of the pages of a
file whose last page is not full, less one, and the number of pages of the others.  So
it finds a page behind the last one of a file of whole pages: in the inode, in fmap
0, or, after 28 or 268 pages, in the fmap behind the one it looks at.
`kfsPage_end_iff` is about the files whose end it finds.
-/

namespace Ko6.Fs

open Ko6.Lib Ko6.Common

/-! ## Model -/

/-- The entries of `KfsFmap` that `kfs_page` reads: the fmap and the index in it. -/
def kfsPageEntries (s : Kfs) (inode pgOffset : Nat) : List (Nat × Nat) :=
  let size := (s.inode inode).size
  if size = 0 ∨ pgOffset > size / 4096 then []
  else if pgOffset < 12 then []
  else
    let pgOffset := pgOffset - 12
    let map1 := (s.inode inode).fmap
    if size ≤ 28 * 4096 then [(map1, pgOffset)]
    else
      let map2 := s.fmaps (16 * map1 + pgOffset / 16)
      [(map1, pgOffset / 16), (map2, pgOffset % 16)]

/-- The loop of `kfs_print_dentry` over the pages of a file, from an offset on; `none`
when the fuel runs out. -/
def kfsPrintPages (s : Kfs) (inode : Nat) : Nat → Nat → Option (List Nat)
  | 0, _ => none
  | fuel + 1, offset =>
    match kfsPage s inode offset with
    | none => some []
    | some page => (kfsPrintPages s inode fuel (offset + 1)).map fun pages => page :: pages

/-! ## The end -/

/-- `kfs_page` ends with the file, stays in the entries of the fmaps, and the loop of
`kfs_print_dentry` comes to all the pages and no other. -/
structure EndsRight (s : Kfs) (i : Nat) : Prop where
  page : ∀ k, kfsPage s i k = none ↔ (s.inode i).size ≤ k * 4096
  entry : ∀ k, ∀ e ∈ kfsPageEntries s i k, e.1 < kfsMaxFmap ∧ e.2 < 16
  loop : ∃ fuel pages, kfsPrintPages s i fuel 0 = some pages ∧
    pages.map some = (List.range (((s.inode i).size + 4095) / 4096)).map (kfsPage s i)

section
variable {s : Kfs} {i k : Nat}

theorem kfsPage_eq_none_iff :
    kfsPage s i k = none ↔ (s.inode i).size = 0 ∨ k > (s.inode i).size / 4096 := by
  unfold kfsPage
  simp only
  split
  · exact iff_of_true rfl ‹_›
  · refine iff_of_false ?_ ‹_›
    split
    · simp
    split <;> simp

/-- The size says where the search ends, unless its last page is full. -/
theorem kfsPage_ends_iff : (∀ k, kfsPage s i k = none ↔ (s.inode i).size ≤ k * 4096) ↔
    (s.inode i).size = 0 ∨ (s.inode i).size % 4096 ≠ 0 := by
  constructor
  · intro hend
    have hbehind := hend ((s.inode i).size / 4096)
    rw [kfsPage_eq_none_iff] at hbehind
    omega
  · intro hsize k
    rw [kfsPage_eq_none_iff]
    omega

/-- The entries that are read for a page of the file. -/
theorem MapsOk.entries (h : MapsOk s i) (hk : InFile s i k) :
    ∀ e ∈ kfsPageEntries s i k, e.1 < kfsMaxFmap ∧ e.2 < 16 := by
  have hk' : k * 4096 < (s.inode i).size := hk
  have hle := h.size_le
  intro e he
  unfold kfsPageEntries at he
  simp only at he
  rw [if_neg (by omega)] at he
  by_cases h12 : k < 12
  · rw [if_pos h12] at he
    exact absurd he (by simp)
  rw [Nat.not_lt] at h12
  have hin : InFile s i 12 := Nat.lt_of_le_of_lt (Nat.mul_le_mul_right 4096 h12) hk
  rw [if_neg (by omega)] at he
  by_cases hsize : (s.inode i).size ≤ 28 * 4096
  · rw [if_pos hsize, List.mem_singleton] at he
    subst he
    exact ⟨h.first hin, by simp only; omega⟩
  · rw [if_neg hsize, List.mem_cons, List.mem_singleton] at he
    rcases he with rfl | rfl
    · exact ⟨h.first hin, by simp only; omega⟩
    · obtain ⟨-, hlt, -⟩ := h.second (Nat.not_le.mp hsize) _ (hk.group h12)
      exact ⟨hlt, Nat.mod_lt _ (by omega)⟩

theorem kfsPageEntries_behind (hk : kfsPage s i k = none) : kfsPageEntries s i k = [] := by
  unfold kfsPageEntries
  exact if_pos (kfsPage_eq_none_iff.mp hk)

/-- The loop, with `n` pages left. -/
theorem kfsPrintPages_spec (hend : ∀ k, kfsPage s i k = none ↔ (s.inode i).size ≤ k * 4096) :
    ∀ n offset, offset + n = ((s.inode i).size + 4095) / 4096 →
      ∃ pages, kfsPrintPages s i (n + 1) offset = some pages ∧
        pages.map some = (List.range' offset n).map (kfsPage s i) := by
  intro n
  induction n with
  | zero =>
    intro offset hoffset
    have hnone := (hend offset).mpr (by omega)
    refine ⟨[], ?_, rfl⟩
    rw [kfsPrintPages, hnone]
  | succ n ih =>
    intro offset hoffset
    obtain ⟨pages, hrun, hpages⟩ := ih (offset + 1) (by omega)
    have hsome : kfsPage s i offset ≠ none := by
      rw [Ne, hend]
      omega
    obtain ⟨page, hpage⟩ := Option.ne_none_iff_exists'.mp hsome
    refine ⟨page :: pages, ?_, ?_⟩
    · rw [kfsPrintPages, hpage]
      simp only [hrun, Option.map_some]
    · rw [List.map_cons, hpages, List.range'_succ, List.map_cons, hpage]

/-- The end of a file is found exactly when it is empty or its last page is not full. -/
theorem kfsPage_end_iff (hmaps : MapsOk s i) :
    EndsRight s i ↔ (s.inode i).size = 0 ∨ (s.inode i).size % 4096 ≠ 0 := by
  constructor
  · exact fun h => kfsPage_ends_iff.mp h.page
  · intro hsize
    have hend := kfsPage_ends_iff.mpr hsize
    refine ⟨hend, fun k => ?_, ?_⟩
    · by_cases hk : InFile s i k
      · exact hmaps.entries hk
      · rw [kfsPageEntries_behind ((hend k).mpr (Nat.not_lt.mp hk))]
        exact fun e he => absurd he (by simp)
    · obtain ⟨pages, hrun, hpages⟩ := kfsPrintPages_spec hend _ 0 (Nat.zero_add _)
      exact ⟨_, pages, hrun, by rw [hpages, List.range_eq_range']⟩

end

/-! ## Files of one page -/

/-- A file `f` of some size, whose pages are all zeros. -/
def zeroFile (size : Nat) : Kfs :=
  (kfsDo kfsStart (.open_ slashF)).elim kfsStart fun s => kfsSetSize s 1 size

theorem zeroFile_values : ((zeroFile 5).inode 1).size = 5 ∧
    ((zeroFile 4096).inode 1).size = 4096 ∧ kfsPage (zeroFile 4096) 1 1 = some 0 := by
  decide +kernel

theorem mapsOk_of_small {s : Kfs} {i : Nat} (h : (s.inode i).size ≤ 12 * 4096) : MapsOk s i := by
  have hno : ∀ k, 12 ≤ k → ¬ InFile s i k := by
    unfold InFile
    omega
  exact ⟨by omega, fun h => absurd h (hno 12 (by omega)), fun h => absurd h (hno 28 (by omega)),
    fun h => absurd h (hno 28 (by omega))⟩

/-- Five bytes. -/
theorem kfsPage_end_iff_five : EndsRight (zeroFile 5) 1 := by
  obtain ⟨hsize, -⟩ := zeroFile_values
  exact (kfsPage_end_iff (mapsOk_of_small (by rw [hsize]; omega))).mpr (.inr (by rw [hsize]; omega))

/-- One full page: `kfs_page` finds a second one. -/
theorem kfsPage_past_end : ¬ ∀ s i, MapsOk s i → EndsRight s i := by
  intro hall
  obtain ⟨-, hsize, hpage⟩ := zeroFile_values
  have hends := hall (zeroFile 4096) 1 (mapsOk_of_small (by rw [hsize]; omega))
  rw [(hends.page 1).mpr (by rw [hsize])] at hpage
  exact absurd hpage (by simp)

end Ko6.Fs
