import Ko6.Tools.KfsPathname

set_option autoImplicit false

/-!
# Tools: the files that split extracts

`split` writes the full pages of a file one by one, and of the page behind them as much
as `strlen` finds in the buffer.  That is the rest of the file when it has no zero byte and
a zero byte follows: `split_exact_iff`.  For a size of a multiple of 4096 the buffer holds
the page behind the file, or whatever `kfs_page` finds at that place.
-/

namespace Ko6.Tools

open Ko6.Lib Ko6.Common Ko6.Fs

/-! ## Model -/

/-- A byte of a page or of the buffer, the low byte of a word first. -/
def byteOf (buf : KfsBuf) (j : Nat) : BitVec 8 := (buf (j / 4)).extractLsb' (8 * (j % 4)) 8

/-- The bytes of `buffer`. -/
def bytesOf (buf : KfsBuf) : List (BitVec 8) := (List.range 4096).map (byteOf buf)

/-- The loop of `split` over the full pages, each for 4096 bytes of the size: the offset
of the next page, and what was written. -/
def splitLoop (s : Kfs) (dentry size : Nat) : Nat → Nat → List (BitVec 8) → Nat × List (BitVec 8)
  | 0, pageOffset, out => (pageOffset, out)
  | fuel + 1, pageOffset, out =>
    if pageOffset * 4096 + 4096 ≤ size then
      let buffer := (kfsRead s dentry pageOffset fun _ => 0).2
      splitLoop s dentry size fuel (pageOffset + 1) (out ++ bytesOf buffer)
    else (pageOffset, out)

/-- What `split` writes for a file.  `behind` are the bytes behind the buffer; `none` when
there is no NUL in them, and `strlen` does not return. -/
def splitFile (behind : List (BitVec 8)) (s : Kfs) (dentry size : Nat) :
    Option (List (BitVec 8)) :=
  let (pageOffset, out) := splitLoop s dentry size size 0 []
  let buffer := (kfsRead s dentry pageOffset fun _ => 0).2
  let memory := bytesOf buffer ++ behind
  (memory.findIdx? (· = 0)).map fun strlen => out ++ memory.take strlen

/-- What `split` does with a dentry. -/
inductive SplitAction where
  | nothing
  | mkdir (newPath : List (BitVec 8))
  | file (newPath bytes : List (BitVec 8))

/-- `split`; `none` is a fault.  `strncpy` does not end the name of the directory, and
`strcat` goes on behind the string `rest` that stands there in the new block. -/
def split (dirName rest : CStr) (behind : List (BitVec 8)) (s : Kfs) (dentry : Nat) :
    Option SplitAction :=
  if dentry = 0 then some .nothing
  else
    let inode := (s.dentry dentry).inode
    let size := (s.inode inode).size
    (kfsAbsolutePathname s dentry).bind fun absolute =>
      let newPath := dirName.chars ++ rest.chars ++ (cstrIn pathSize absolute).chars
      match (s.inode inode).type with
      | .dir => some (.mkdir newPath)
      | .file => (splitFile behind s dentry size).map (.file newPath)
      | _ => some .nothing

/-- The bytes of a page; page 0 is full of zeros. -/
def pageBytes (s : Kfs) (page : Nat) : List (BitVec 8) := bytesOf (wordsAt s page)

/-- The bytes of the page `k` of a file. -/
def filePage (s : Kfs) (inode k : Nat) : List (BitVec 8) :=
  pageBytes s ((kfsPage s inode k).getD 0)

/-- The first `size` bytes of the pages of a file. -/
def kfsFileBytes (s : Kfs) (inode : Nat) : List (BitVec 8) :=
  let size := (s.inode inode).size
  ((List.range ((size + 4095) / 4096)).flatMap (filePage s inode)).take size

/-- The bytes of the file are written. -/
def SplitsExactly (dirName rest : CStr) (behind : List (BitVec 8)) (s : Kfs) (d : Nat) : Prop :=
  ∃ newPath, split dirName rest behind s d
    = some (.file newPath (kfsFileBytes s (s.dentry d).inode))

/-- The bytes that `kfs_read` finds behind the full pages. -/
def lastByte (s : Kfs) (inode j : Nat) : BitVec 8 :=
  byteOf (wordsAt s ((kfsPage s inode ((s.inode inode).size / 4096)).getD 0)) j

/-! ## Pages -/

section
variable {s : Kfs} {d i k : Nat} {behind : List (BitVec 8)}

@[simp] theorem length_bytesOf (buf : KfsBuf) : (bytesOf buf).length = 4096 := by
  rw [bytesOf, List.length_map, List.length_range]

theorem bytesOf_congr {b b' : KfsBuf} (h : ∀ a, a < 1024 → b a = b' a) :
    bytesOf b = bytesOf b' := by
  refine List.map_congr_left fun j hj => ?_
  have hj := List.mem_range.mp hj
  rw [byteOf, byteOf, h (j / 4) (by omega)]

theorem getElem_bytesOf (buf : KfsBuf) {j : Nat} (hj : j < (bytesOf buf).length) :
    (bytesOf buf)[j] = byteOf buf j := by
  unfold bytesOf at hj ⊢
  rw [List.getElem_map, List.getElem_range]

/-- The buffer after `memset` and `kfs_read`; outside of the file it stays zero. -/
theorem bytesOf_kfsRead (s : Kfs) (d k : Nat) :
    bytesOf (kfsRead s d k fun _ => 0).2 = filePage s (s.dentry d).inode k := by
  rw [filePage, pageBytes]
  refine bytesOf_congr fun a ha => ?_
  cases hpage : kfsPage s (s.dentry d).inode k with
  | none =>
    rw [kfsRead, hpage]
    rfl
  | some page => exact kfsRead_words hpage ha

theorem length_filePage (s : Kfs) (i k : Nat) : (filePage s i k).length = 4096 := by
  rw [filePage, pageBytes, length_bytesOf]

theorem length_flatMap_filePage (s : Kfs) (i : Nat) (l : List Nat) :
    (l.flatMap (filePage s i)).length = 4096 * l.length := by
  induction l with
  | nil => rfl
  | cons k l ih =>
    rw [List.flatMap_cons, List.length_append, ih, length_filePage, List.length_cons]
    omega

/-- The loop writes the full pages. -/
theorem splitLoop_spec (size fuel k : Nat) (out : List (BitVec 8)) (hk : k ≤ size / 4096)
    (hfuel : size / 4096 ≤ k + fuel) : splitLoop s d size fuel k out = (size / 4096,
      out ++ (List.range' k (size / 4096 - k)).flatMap (filePage s (s.dentry d).inode)) := by
  induction fuel generalizing k out with
  | zero =>
    have hend : k = size / 4096 := by omega
    rw [splitLoop, hend, Nat.sub_self, List.range'_zero, List.flatMap_nil, List.append_nil]
  | succ fuel ih =>
    rw [splitLoop]
    by_cases hmore : k * 4096 + 4096 ≤ size
    · rw [if_pos hmore]
      simp only
      rw [ih (k + 1) _ (by omega) (by omega), bytesOf_kfsRead,
        show size / 4096 - k = (size / 4096 - (k + 1)) + 1 by omega, List.range'_succ,
        List.flatMap_cons, List.append_assoc]
    · have hend : k = size / 4096 := by omega
      rw [if_neg hmore, hend, Nat.sub_self, List.range'_zero, List.flatMap_nil, List.append_nil]

/-- The full pages, and the rest of the page behind them. -/
theorem kfsFileBytes_eq (s : Kfs) (i : Nat) : kfsFileBytes s i =
    (List.range ((s.inode i).size / 4096)).flatMap (filePage s i) ++
      (filePage s i ((s.inode i).size / 4096)).take ((s.inode i).size % 4096) := by
  rw [kfsFileBytes]
  generalize (s.inode i).size = size
  by_cases hr : size % 4096 = 0
  · have hlen := length_flatMap_filePage s i (List.range (size / 4096))
    rw [List.length_range] at hlen
    rw [hr, List.take_zero, List.append_nil, show (size + 4095) / 4096 = size / 4096 by omega,
      List.take_of_length_le (by omega)]
  · rw [show (size + 4095) / 4096 = size / 4096 + 1 by omega, List.range_succ, List.flatMap_append,
      List.flatMap_singleton, List.take_append, length_flatMap_filePage, List.length_range,
      List.take_of_length_le (by rw [length_flatMap_filePage, List.length_range]; omega),
      show size - 4096 * (size / 4096) = size % 4096 by omega]

/-- `strlen` finds the rest of the file. -/
theorem splitFile_exact_iff (behind : List (BitVec 8)) : splitFile behind s d (s.inode (s.dentry d).inode).size
      = some (kfsFileBytes s (s.dentry d).inode) ↔
    (∀ j, j < (s.inode (s.dentry d).inode).size % 4096 → lastByte s (s.dentry d).inode j ≠ 0) ∧
      lastByte s (s.dentry d).inode ((s.inode (s.dentry d).inode).size % 4096) = 0 := by
  rw [kfsFileBytes_eq, splitFile, splitLoop_spec _ _ 0 [] (by omega) (by omega)]
  simp only [bytesOf_kfsRead, List.nil_append, Nat.sub_zero, ← List.range_eq_range']
  unfold lastByte
  generalize hi : (s.dentry d).inode = i
  generalize hsize : (s.inode i).size = size
  have hr : size % 4096 < 4096 := Nat.mod_lt _ (by decide)
  have hlen := length_filePage s i (size / 4096)
  have hbyte : ∀ j, j < 4096 → ∀ hj : j < (filePage s i (size / 4096) ++ behind).length,
      (filePage s i (size / 4096) ++ behind)[j]
        = byteOf (wordsAt s ((kfsPage s i (size / 4096)).getD 0)) j := by
    intro j hj hj'
    rw [List.getElem_append_left (by omega)]
    simp only [filePage, pageBytes, getElem_bytesOf]
  have htake : (filePage s i (size / 4096)).take (size % 4096)
      = (filePage s i (size / 4096) ++ behind).take (size % 4096) := by
    rw [List.take_append_of_le_length (by omega)]
  have hmem : size % 4096 < (filePage s i (size / 4096) ++ behind).length := by
    rw [List.length_append]
    omega
  rw [htake]
  generalize filePage s i (size / 4096) ++ behind = memory at hbyte hmem
  constructor
  · intro heq
    obtain ⟨n, hfind, hout⟩ := Option.map_eq_some_iff.mp heq
    obtain ⟨hn, hnul, hbefore⟩ := List.findIdx?_eq_some_iff_getElem.mp hfind
    -- what is written is as long as the rest of the file
    have hsame := congrArg List.length (List.append_cancel_left hout)
    rw [List.length_take, List.length_take] at hsame
    obtain rfl : n = size % 4096 := by omega
    refine ⟨fun j hj => ?_, ?_⟩
    · rw [← hbyte j (by omega) (by omega)]
      simpa using hbefore j hj
    · rw [← hbyte _ hr hmem]
      simpa using hnul
  · rintro ⟨hbefore, hnul⟩
    have hfind : memory.findIdx? (· = 0) = some (size % 4096) := by
      refine List.findIdx?_eq_some_iff_getElem.mpr ⟨hmem, ?_, fun j hj => ?_⟩
      · rw [hbyte _ hr hmem]
        simpa using hnul
      · rw [hbyte j (by omega) (by omega)]
        simpa using hbefore j hj
    rw [hfind]
    rfl

end

/-! ## Files -/

section
variable {s s' : Kfs} {d : Nat} {ws : List (List (BitVec 8))} {dirName rest : CStr}
  {behind : List (BitVec 8)}

/-- Below the eighth level there is no path name. -/
theorem pathnameLoop_deep (h : DirTree s) (hd : NamesTo s d ws) (n : Nat) (path : Nat → BitVec 8)
    (hn : n < ws.length) : pathnameLoop s n d path = none := by
  induction hd generalizing n path with
  | top => exact absurd hn (Nat.not_lt_zero n)
  | @leaf d x w ws hd hlisted hw ih =>
    obtain ⟨-, hx0, hroot⟩ := h.isLeaf hd.inTree hlisted
    rw [List.length_append, List.length_singleton] at hn
    rw [pathnameLoop.eq_def]
    simp only [if_neg hx0]
    cases n with
    | zero => rfl
    | succ n =>
      simp only [hroot]
      exact ih n _ (by omega)

theorem SplitsExactly.written (hd0 : d ≠ 0) (hfile : (s.inode (s.dentry d).inode).type = .file)
    (h : SplitsExactly dirName rest behind s d) :
    splitFile behind s d (s.inode (s.dentry d).inode).size
      = some (kfsFileBytes s (s.dentry d).inode) := by
  obtain ⟨newPath, heq⟩ := h
  rw [split, if_neg hd0] at heq
  obtain ⟨path, -, heq⟩ := Option.bind_eq_some_iff.mp heq
  simp only [hfile] at heq
  obtain ⟨bytes, hbytes, haction⟩ := Option.map_eq_some_iff.mp heq
  rw [SplitAction.file.injEq] at haction
  rw [hbytes, haction.2]

/-- `split` writes exactly the file when it has a path name, no zero byte stands in the part
of the file behind its full pages, and one stands behind it in the buffer. -/
theorem split_exact_iff (h : DirTree s) (hd : NamesTo s d ws) (hd0 : d ≠ 0)
    (hfile : (s.inode (s.dentry d).inode).type = .file) :
    SplitsExactly dirName rest behind s d ↔ ws.length ≤ 8 ∧
      (∀ j, j < (s.inode (s.dentry d).inode).size % 4096 →
        lastByte s (s.dentry d).inode j ≠ 0) ∧
      lastByte s (s.dentry d).inode ((s.inode (s.dentry d).inode).size % 4096) = 0 := by
  rw [← splitFile_exact_iff behind]
  constructor
  · intro hexact
    refine ⟨?_, hexact.written hd0 hfile⟩
    by_contra hdepth
    have hpath : kfsAbsolutePathname s d = none := by
      rw [kfsAbsolutePathname, if_neg hd0, pathnameLoop_deep h hd 8 _ (by omega)]
      rfl
    obtain ⟨newPath, heq⟩ := hexact
    rw [split, if_neg hd0, hpath] at heq
    exact absurd heq (by simp)
  · rintro ⟨hdepth, hwritten⟩
    obtain ⟨path, hpath, -, -⟩ := kfsAbsolutePathname_eq h hd hdepth
    refine ⟨dirName.chars ++ rest.chars ++ (cstrIn pathSize path.byte).chars, ?_⟩
    rw [split, if_neg hd0, hpath, Option.bind_some]
    simp only [hfile, hwritten]
    rfl

/-- `f` in `/`, with one word. -/
def wroteWord (s : Kfs) (word : BitVec 32) (size : Nat) : Kfs :=
  kfsSetSize (kfsWrite s 1 0 fun a => if a = 0 then word else 0).2 1 size

theorem wroteWord_names (hinv : NameInv s) (hd : NamesTo s d ws) (word : BitVec 32) (size : Nat) :
    NameInv (wroteWord s word size) ∧ NamesTo (wroteWord s word size) d ws := by
  have hsame : SameDentries s (wroteWord s word size) :=
    (kfsWrite_dentries s 1 0 _).trans ⟨rfl, rfl⟩
  exact ⟨hsame.links.nameInv hinv, hsame.links.namesTo hinv.toDirTree hd⟩

/-- What the result depends on. -/
def splitFacts (s : Kfs) : KfsType × Nat × BitVec 8 × BitVec 8 :=
  let i := (s.dentry 1).inode
  ((s.inode i).type, (s.inode i).size, lastByte s i 0, lastByte s i 1)

/-- The byte `a`. -/
theorem split_exact_iff_letter : ∃ s, kfsOp kfsStart (.open_ slashF) = some s ∧
    ∀ dirName rest behind, SplitsExactly dirName rest behind (wroteWord s 97 1) 1 := by
  obtain ⟨s, hop, hinv, hnames⟩ := kfsOpen_start slashF [[102]] 1 rfl
    (by decide +kernel) (by decide) (by unfold Enough; decide +kernel) (by decide +kernel)
  obtain ⟨hinv', hnames'⟩ := wroteWord_names hinv hnames 97 1
  have hfacts : (kfsOp kfsStart (.open_ slashF)).map (fun s => splitFacts (wroteWord s 97 1))
      = some (.file, 1, 97, 0) := by decide +kernel
  rw [hop, Option.map_some, Option.some.injEq, splitFacts] at hfacts
  simp only [Prod.mk.injEq] at hfacts
  obtain ⟨hfile, hsize, hletter, hnul⟩ := hfacts
  refine ⟨s, hop, fun dirName rest behind =>
    (split_exact_iff hinv'.toDirTree hnames' (by decide) hfile).mpr ⟨by decide, fun j hj => ?_, ?_⟩⟩
  · rw [hsize] at hj
    obtain rfl : j = 0 := by omega
    rw [hletter]
    decide
  · rw [hsize]
    exact hnul

/-- The bytes 0 and 1: nothing is written. -/
theorem split_zero_byte : ∃ s, kfsOp kfsStart (.open_ slashF) = some s ∧
    NamesTo (wroteWord s 256 2) 1 [[102]] ∧
    ((wroteWord s 256 2).inode ((wroteWord s 256 2).dentry 1).inode).type = .file ∧
    ∀ dirName rest behind, ¬ SplitsExactly dirName rest behind (wroteWord s 256 2) 1 := by
  obtain ⟨s, hop, hinv, hnames⟩ := kfsOpen_start slashF [[102]] 1 rfl
    (by decide +kernel) (by decide) (by unfold Enough; decide +kernel) (by decide +kernel)
  have hfacts : (kfsOp kfsStart (.open_ slashF)).map (fun s => splitFacts (wroteWord s 256 2))
      = some (.file, 2, 0, 1) := by decide +kernel
  rw [hop, Option.map_some, Option.some.injEq, splitFacts] at hfacts
  simp only [Prod.mk.injEq] at hfacts
  obtain ⟨hfile, hsize, hzero, -⟩ := hfacts
  refine ⟨s, hop, (wroteWord_names hinv hnames 256 2).2, hfile, fun dirName rest behind hexact => ?_⟩
  obtain ⟨hnz, -⟩ := (splitFile_exact_iff _).mp (hexact.written (by decide) hfile)
  exact hnz 0 (by rw [hsize]; decide) hzero

end

end Ko6.Tools
