import Ko6.Common.Cstd
import Ko6.Lib.Collect
import Ko6.Lib.Endian

set_option autoImplicit false

/-!
# Tools: `elf_open` of `tools/elfloader/elfloader.c`

The loader reads the header of an executable, the table of its section headers and the
table of the names of the sections, and records the sections that are asked for, at most
eight.  Positions, sizes and indices are those that the file gives: the index of the header
of the name table is not compared with the number of headers, the position of a name not
with the size of the table, nor the number of records with their array, and the lengths
that `read` returns for the two tables are not looked at.

An area that a `read` fills only in part keeps its old bytes behind the end of the file.
An access outside an area is `fault`.
-/

namespace Ko6.Tools

open Ko6.Lib Ko6.Common

/-! ## The file -/

/-- `"\x7F""ELF"`. -/
def elfMagic : List (BitVec 8) := [0x7F, 0x45, 0x4C, 0x46]

/-- `EM_MIPS`. -/
def emMips : BitVec 16 := 8

/-- `SHT_PROGBITS`. -/
def shtProgbits : BitVec 32 := 1

/-- `SHT_NOBITS`. -/
def shtNobits : BitVec 32 := 8

/-- `MAX_SECTIONS`. -/
def maxSections : Nat := 8

/-- `sizeof (Elf32_Ehdr)`. -/
def ehdrSize : Nat := 52

/-- `sizeof (Elf32_Shdr)`. -/
def shdrSize : Nat := 40

/-- `Elf32_Ehdr`. -/
structure Ehdr where
  ident : List (BitVec 8)
  type : BitVec 16
  machine : BitVec 16
  version : BitVec 32
  entry : BitVec 32
  phoff : BitVec 32
  shoff : BitVec 32
  flags : BitVec 32
  ehsize : BitVec 16
  phentsize : BitVec 16
  phnum : BitVec 16
  shentsize : BitVec 16
  shnum : BitVec 16
  shstrndx : BitVec 16
  deriving DecidableEq

/-- `Elf32_Shdr`. -/
structure Shdr where
  name : BitVec 32
  type : BitVec 32
  flags : BitVec 32
  addr : BitVec 32
  offset : BitVec 32
  size : BitVec 32
  link : BitVec 32
  info : BitVec 32
  addralign : BitVec 32
  entsize : BitVec 32
  deriving DecidableEq

/-- The `uint16_t` at `a`. -/
def half (e : Endian) (m : Nat → BitVec 8) (a : Nat) : BitVec 16 :=
  match e with
  | .little => m (a + 1) ++ m a
  | .big => m a ++ m (a + 1)

/-- The `uint32_t` at `a`. -/
def word (e : Endian) (m : Nat → BitVec 8) (a : Nat) : BitVec 32 :=
  Ram.ofBytes e (m a) (m (a + 1)) (m (a + 2)) (m (a + 3))

/-- The bytes `m` as an `Elf32_Ehdr`. -/
def ehdrOf (e : Endian) (m : Nat → BitVec 8) : Ehdr where
  ident := (List.range 16).map m
  type := half e m 16
  machine := half e m 18
  version := word e m 20
  entry := word e m 24
  phoff := word e m 28
  shoff := word e m 32
  flags := word e m 36
  ehsize := half e m 40
  phentsize := half e m 42
  phnum := half e m 44
  shentsize := half e m 46
  shnum := half e m 48
  shstrndx := half e m 50

/-- Element `i` of an array of `Elf32_Shdr` in the bytes `m`. -/
def shdrOf (e : Endian) (m : Nat → BitVec 8) (i : Nat) : Shdr where
  name := word e m (shdrSize * i)
  type := word e m (shdrSize * i + 4)
  flags := word e m (shdrSize * i + 8)
  addr := word e m (shdrSize * i + 12)
  offset := word e m (shdrSize * i + 16)
  size := word e m (shdrSize * i + 20)
  link := word e m (shdrSize * i + 24)
  info := word e m (shdrSize * i + 28)
  addralign := word e m (shdrSize * i + 32)
  entsize := word e m (shdrSize * i + 36)

/-- The area into which a regular file is read from `offset` on: behind the end of the file
it keeps the bytes `old`. -/
def readInto (file : List (BitVec 8)) (offset : Nat) (old : Nat → BitVec 8) : Nat → BitVec 8 :=
  fun k => (file[offset + k]?).getD (old k)

/-! ## Functions -/

/-- The machine of one call: its order of bytes, the outcomes of `open` and of the two
`malloc`, and what is in the two areas before they are read. -/
structure ElfHost where
  endian : Endian
  opens : Bool
  elfAlloc : Bool
  tableAlloc : Bool
  stack : Nat → BitVec 8
  heap : Nat → BitVec 8

/-- `section_names` and `section_count`, with the names as the list of `section_count`
strings. -/
inductive ElfRequest where
  | all (sectionCount : Int)
  | names (names : List CStr)

namespace ElfRequest

/-- `section_count`. -/
def sectionCount : ElfRequest → Int
  | all count => count
  | names l => l.length

/-- What each section header is compared with: the names in turn or, without names, its own
type. -/
def keys : ElfRequest → List (Option CStr)
  | all _ => [none]
  | names l => l.map some

end ElfRequest

/-- An element of `elf->sections`, with the bytes that `strncpy` writes. -/
structure ElfSection where
  name : List (BitVec 8)
  header : Shdr
  addr : BitVec 32
  deriving DecidableEq

/-- `elf_t`. -/
structure Elf where
  header : Ehdr
  sectionCount : Nat
  sections : List ElfSection
  deriving DecidableEq

/-- What a call does. -/
inductive ElfOutcome where
  | fault
  | null
  | opened (elf : Elf)
  deriving DecidableEq

/-- `strcmp (name, s) == 0` for the name at `a` in a table of `size` bytes, with `none` for an
access behind the table. -/
def nameIs (table : Nat → BitVec 8) (size : Nat) : Nat → List (BitVec 8) → Option Bool
  | a, [] => if a < size then some (table a = 0) else none
  | a, c :: cs =>
    if a < size then
      if table a = c then nameIs table size (a + 1) cs else some false
    else none

/-- The name at `a`, read up to its NUL in at most `n` steps. -/
def nameFrom (table : Nat → BitVec 8) (size : Nat) : Nat → Nat → Option (List (BitVec 8))
  | 0, _ => none
  | n + 1, a =>
    if a < size then
      if table a = 0 then some [] else (nameFrom table size n (a + 1)).map (table a :: ·)
    else none

/-- `strncpy (…, name, 15)`: the fifteen bytes that are written. -/
def strncpy15 (name : List (BitVec 8)) : List (BitVec 8) := (name ++ List.replicate 15 0).take 15

/-- The record of a section. -/
def ElfSection.record (sh : Shdr) (name : List (BitVec 8)) : ElfSection where
  name := strncpy15 name
  header := sh
  addr := sh.addr

/-- A turn of the inner loop of `elf_open` or, without a name, the two other branches, which
read the whole name to print it. -/
def findSection (table : Nat → BitVec 8) (size : Nat) (sh : Shdr) :
    Option CStr → Option (Option ElfSection)
  | some s =>
    (nameIs table size sh.name.toNat s.chars).map fun same =>
      if same then some (ElfSection.record sh s.chars) else none
  | none =>
    if sh.addr ≠ 0 ∧ sh.type = shtProgbits then
      (nameFrom table size size sh.name.toNat).map fun name => some (ElfSection.record sh name)
    else if sh.type = shtNobits then
      (nameFrom table size size sh.name.toNat).map fun name => some (ElfSection.record sh name)
    else some none

/-- The pairs of the two loops, in their order. -/
def elfPairs (shnum : Nat) (keys : List (Option CStr)) : List (Nat × Option CStr) :=
  (List.range shnum).flatMap fun i => keys.map fun key => (i, key)

/-- The array `sections` after its `read`. -/
def sectionHeaders (host : ElfHost) (file : List (BitVec 8)) (header : Ehdr) (i : Nat) : Shdr :=
  shdrOf host.endian (readInto file header.shoff.toNat host.stack) i

/-- `section_name_table` after its `read`. -/
def sectionNames (host : ElfHost) (file : List (BitVec 8)) (strtab : Shdr) : Nat → BitVec 8 :=
  readInto file strtab.offset.toNat host.heap

/-- `elf_open`. -/
def elfOpen (host : ElfHost) (file : List (BitVec 8)) (req : ElfRequest) : ElfOutcome :=
  if req.sectionCount > maxSections then .null
  else if host.opens = false then .null
  else if host.elfAlloc = false then .null
  else if min ehdrSize file.length ≠ ehdrSize then .null
  else
    let header := ehdrOf host.endian fun k => file.getD k 0
    if header.ident.take 4 ≠ elfMagic then .null
    else if header.machine ≠ emMips then .null
    else if header.shnum ≤ header.shstrndx then .fault
    else
      let sections := sectionHeaders host file header
      let strtab := sections header.shstrndx.toNat
      if host.tableAlloc = false then .null
      else
        let table := sectionNames host file strtab
        let find := fun p : Nat × Option CStr =>
          findSection table strtab.size.toNat (sections p.1) p.2
        match collect maxSections find (elfPairs header.shnum.toNat req.keys) [] with
        | none => .fault
        | some found => .opened ⟨header, found.length, found⟩

/-! ## The sections of a file -/

/-- Header `i` is in the file, to its last byte. -/
def HasShdr (file : List (BitVec 8)) (header : Ehdr) (i : Nat) : Prop :=
  header.shoff.toNat + shdrSize * (i + 1) ≤ file.length

instance (file : List (BitVec 8)) (header : Ehdr) (i : Nat) : Decidable (HasShdr file header i) :=
  inferInstanceAs (Decidable (_ ≤ _))

/-- How much of the name table is in the file. -/
def tableLength (file : List (BitVec 8)) (strtab : Shdr) : Nat :=
  min strtab.size.toNat (file.length - strtab.offset.toNat)

/-- The record of section `i` of the file, when its header, that of the name table and the
name are in the file and are what is asked for. -/
def fileSection (e : Endian) (file : List (BitVec 8)) (header : Ehdr) (p : Nat × Option CStr) :
    Option ElfSection :=
  let sections := shdrOf e fun k => file.getD (header.shoff.toNat + k) 0
  let strtab := sections header.shstrndx.toNat
  if HasShdr file header p.1 ∧ HasShdr file header header.shstrndx.toNat then
    (findSection (fun k => file.getD (strtab.offset.toNat + k) 0) (tableLength file strtab)
      (sections p.1) p.2).join
  else none

/-- The records of the sections of the file that are asked for, in the order of the headers. -/
def fileSections (e : Endian) (file : List (BitVec 8)) (header : Ehdr) (req : ElfRequest) :
    List ElfSection :=
  (elfPairs header.shnum.toNat req.keys).filterMap (fileSection e file header)

/-- No access is outside its area, and what is opened has at most eight sections, those of
the file that are asked for. -/
def ElfRobust (e : Endian) (file : List (BitVec 8)) (req : ElfRequest) : ElfOutcome → Prop
  | .fault => False
  | .null => True
  | .opened elf => elf.sectionCount = elf.sections.length ∧ elf.sectionCount ≤ maxSections ∧
      elf.sections = fileSections e file elf.header req

/-! ## Requests that are safe -/

/-- The string `s` is at `a` in the first `size` bytes, with its NUL. -/
def StringAt (table : Nat → BitVec 8) (size a : Nat) (s : CStr) : Prop :=
  a + strlen s < size ∧ ∀ k, k < strlen s + 1 → table (a + k) = s.byte k

instance (table : Nat → BitVec 8) (size a : Nat) (s : CStr) :
    Decidable (StringAt table size a s) :=
  inferInstanceAs (Decidable (_ ∧ _))

/-- What is recorded of a file without names. -/
def Wanted (sh : Shdr) : Prop := (sh.addr ≠ 0 ∧ sh.type = shtProgbits) ∨ sh.type = shtNobits

instance (sh : Shdr) : Decidable (Wanted sh) := inferInstanceAs (Decidable (_ ∨ _))

/-- The section is asked for: it has the name or, without names, the type. -/
def Asked (table : Nat → BitVec 8) (size : Nat) (sh : Shdr) : Option CStr → Prop
  | some s => StringAt table size sh.name.toNat s
  | none => Wanted sh

instance (table : Nat → BitVec 8) (size : Nat) (sh : Shdr) :
    ∀ key, Decidable (Asked table size sh key)
  | some _ => inferInstanceAs (Decidable (StringAt _ _ _ _))
  | none => inferInstanceAs (Decidable (Wanted sh))

/-- The first `size` bytes have what is read of the name: a byte that is not that of the
requested name, or its NUL; without names, the NUL of a section that is recorded. -/
def NameEnds (table : Nat → BitVec 8) (size : Nat) (sh : Shdr) : Option CStr → Prop
  | some s => ∃ k, k ≤ strlen s ∧ sh.name.toNat + k < size ∧
      (k = strlen s ∨ table (sh.name.toNat + k) ≠ s.byte k)
  | none => Wanted sh → ∃ k, sh.name.toNat + k < size ∧ table (sh.name.toNat + k) = 0

/-- The call is refused before the section headers are read. -/
def ElfRefused (host : ElfHost) (file : List (BitVec 8)) (req : ElfRequest) : Prop :=
  let header := ehdrOf host.endian fun k => file.getD k 0
  req.sectionCount > maxSections ∨ host.opens = false ∨ host.elfAlloc = false ∨
    file.length < ehdrSize ∨ header.ident.take 4 ≠ elfMagic ∨ header.machine ≠ emMips

/-- What the tables have to be for the request: all that is read of the names is in the name
table, at most eight sections are asked for, and each of these is wholly in the file. -/
structure ElfRegular (host : ElfHost) (file : List (BitVec 8)) (req : ElfRequest)
    (header : Ehdr) (strtab : Shdr) : Prop where
  ends : ∀ p ∈ elfPairs header.shnum.toNat req.keys,
    NameEnds (sectionNames host file strtab) strtab.size.toNat
      (sectionHeaders host file header p.1) p.2
  few : (elfPairs header.shnum.toNat req.keys).countP (fun p =>
    Asked (sectionNames host file strtab) strtab.size.toNat
      (sectionHeaders host file header p.1) p.2) ≤ maxSections
  whole : ∀ p ∈ elfPairs header.shnum.toNat req.keys,
    Asked (sectionNames host file strtab) strtab.size.toNat
      (sectionHeaders host file header p.1) p.2 →
    HasShdr file header p.1 ∧ HasShdr file header header.shstrndx.toNat ∧
      NameEnds (sectionNames host file strtab) (tableLength file strtab)
        (sectionHeaders host file header p.1) p.2

/-! ## Names -/

section
variable {table table' : Nat → BitVec 8} {size size' a : Nat} {s : CStr} {sh : Shdr}
  {key : Option CStr}

/-- The comparison fails when it passes the end of the table. -/
theorem nameIs_isSome_iff {cs : List (BitVec 8)} : (nameIs table size a cs).isSome ↔
    ∃ k, k ≤ cs.length ∧ a + k < size ∧ (k = cs.length ∨ table (a + k) ≠ cs.getD k 0) := by
  induction cs generalizing a with
  | nil =>
    rw [nameIs]
    constructor
    · intro h
      by_cases hlt : a < size
      · exact ⟨0, Nat.le_refl _, hlt, .inl rfl⟩
      · rw [if_neg hlt] at h
        exact nomatch h
    · rintro ⟨k, -, hlt, -⟩
      rw [if_pos (by omega)]
      rfl
  | cons c cs ih =>
    rw [nameIs]
    by_cases hlt : a < size
    · by_cases hc : table a = c
      · rw [if_pos hlt, if_pos hc, ih]
        constructor
        · rintro ⟨k, hk, hin, hend⟩
          refine ⟨k + 1, Nat.succ_le_succ hk, by omega, ?_⟩
          rw [List.length_cons, List.getD_cons_succ, ← Nat.add_assoc, Nat.add_right_comm]
          exact hend.imp (congrArg (· + 1)) id
        · rintro ⟨k, hk, hin, hend⟩
          cases k with
          | zero =>
            rcases hend with hend | hend
            · exact nomatch hend
            · exact absurd hc hend
          | succ k =>
            rw [List.length_cons, List.getD_cons_succ, ← Nat.add_assoc, Nat.add_right_comm] at hend
            exact ⟨k, Nat.le_of_succ_le_succ hk, by omega, hend.imp Nat.succ.inj id⟩
      · rw [if_pos hlt, if_neg hc]
        exact ⟨fun _ => ⟨0, Nat.zero_le _, hlt, .inr hc⟩, fun _ => rfl⟩
    · rw [if_neg hlt]
      constructor
      · exact fun h => nomatch h
      · rintro ⟨k, -, hin, -⟩
        omega

/-- The comparison succeeds on the bytes of the string and its NUL. -/
theorem nameIs_eq_some_true_iff {cs : List (BitVec 8)} : nameIs table size a cs = some true ↔
    a + cs.length < size ∧ ∀ k, k < cs.length + 1 → table (a + k) = cs.getD k 0 := by
  induction cs generalizing a with
  | nil =>
    rw [nameIs]
    by_cases hlt : a < size
    · rw [if_pos hlt, Option.some.injEq, decide_eq_true_iff]
      constructor
      · intro h
        refine ⟨hlt, fun k hk => ?_⟩
        rw [show k = 0 by simpa using hk]
        exact h
      · exact fun h => h.2 0 Nat.one_pos
    · rw [if_neg hlt]
      exact ⟨(fun h => nomatch h), fun h => absurd h.1 hlt⟩
  | cons c cs ih =>
    rw [nameIs]
    by_cases hlt : a < size
    · by_cases hc : table a = c
      · rw [if_pos hlt, if_pos hc, ih, List.length_cons, Nat.add_assoc a 1, Nat.add_comm 1]
        refine and_congr_right fun _ => ⟨fun h k hk => ?_, fun h k hk => ?_⟩
        · cases k with
          | zero => exact hc
          | succ k =>
            have htail := h k (by omega)
            rw [Nat.add_right_comm] at htail
            exact htail
        · have htail := h (k + 1) (by omega)
          rw [← Nat.add_assoc, Nat.add_right_comm] at htail
          exact htail
      · rw [if_pos hlt, if_neg hc]
        exact ⟨(fun h => nomatch h), fun h => absurd (h.2 0 (Nat.succ_pos _)) hc⟩
    · rw [if_neg hlt]
      refine ⟨(fun h => nomatch h), fun h => ?_⟩
      omega

/-- The name is read to its NUL, which `size` steps reach when it is in the table. -/
theorem nameFrom_isSome_iff {n : Nat} (hn : size ≤ a + n) : (nameFrom table size n a).isSome ↔
    ∃ k, a + k < size ∧ table (a + k) = 0 := by
  induction n generalizing a with
  | zero =>
    refine ⟨(fun h => nomatch h), ?_⟩
    rintro ⟨k, hk, -⟩
    omega
  | succ n ih =>
    rw [nameFrom]
    by_cases hlt : a < size
    · by_cases hzero : table a = 0
      · rw [if_pos hlt, if_pos hzero]
        exact ⟨fun _ => ⟨0, hlt, hzero⟩, fun _ => rfl⟩
      · rw [if_pos hlt, if_neg hzero, Option.isSome_map, ih (by omega)]
        constructor
        · rintro ⟨k, hk, hend⟩
          rw [Nat.add_right_comm] at hend
          exact ⟨k + 1, by omega, hend⟩
        · rintro ⟨k, hk, hend⟩
          cases k with
          | zero => exact absurd hend hzero
          | succ k =>
            refine ⟨k, by omega, ?_⟩
            rw [Nat.add_right_comm]
            exact hend
    · rw [if_neg hlt]
      refine ⟨(fun h => nomatch h), ?_⟩
      rintro ⟨k, hk, -⟩
      omega

/-- What a comparison gives in the first bytes of a table it gives in the table. -/
theorem nameIs_mono (hle : size' ≤ size) (hsame : ∀ k, k < size' → table' k = table k)
    {cs : List (BitVec 8)} {same : Bool} (h : nameIs table' size' a cs = some same) :
    nameIs table size a cs = some same := by
  induction cs generalizing a with
  | nil =>
    by_cases hlt : a < size'
    · rw [nameIs, if_pos hlt, hsame a hlt] at h
      rw [nameIs, if_pos (Nat.lt_of_lt_of_le hlt hle)]
      exact h
    · rw [nameIs, if_neg hlt] at h
      exact nomatch h
  | cons c cs ih =>
    by_cases hlt : a < size'
    · rw [nameIs, if_pos hlt, hsame a hlt] at h
      rw [nameIs, if_pos (Nat.lt_of_lt_of_le hlt hle)]
      by_cases hc : table a = c
      · rw [if_pos hc] at h ⊢
        exact ih h
      · rw [if_neg hc] at h ⊢
        exact h
    · rw [nameIs, if_neg hlt] at h
      exact nomatch h

/-- A name that ends in the first bytes of a table is the same in the table. -/
theorem nameFrom_mono (hle : size' ≤ size) (hsame : ∀ k, k < size' → table' k = table k)
    {n n' : Nat} (hn : n' ≤ n) {name : List (BitVec 8)}
    (h : nameFrom table' size' n' a = some name) : nameFrom table size n a = some name := by
  induction n' generalizing n a name with
  | zero => exact nomatch h
  | succ n' ih =>
    obtain ⟨n, rfl⟩ : ∃ m, n = m + 1 := ⟨n - 1, by omega⟩
    by_cases hlt : a < size'
    · rw [nameFrom, if_pos hlt, hsame a hlt] at h
      rw [nameFrom, if_pos (Nat.lt_of_lt_of_le hlt hle)]
      by_cases hzero : table a = 0
      · rw [if_pos hzero] at h ⊢
        exact h
      · rw [if_neg hzero, Option.map_eq_some_iff] at h
        rw [if_neg hzero, Option.map_eq_some_iff]
        obtain ⟨tail, htail, hname⟩ := h
        exact ⟨tail, ih (Nat.le_of_succ_le_succ hn) htail, hname⟩
    · rw [nameFrom, if_neg hlt] at h
      exact nomatch h

/-! ## Sections -/

/-- A section can be examined when its name ends in the table. -/
theorem findSection_isSome_iff :
    (findSection table size sh key).isSome ↔ NameEnds table size sh key := by
  cases key with
  | some s =>
    rw [findSection, Option.isSome_map]
    exact nameIs_isSome_iff
  | none =>
    rw [findSection, NameEnds, Wanted]
    by_cases hprogbits : sh.addr ≠ 0 ∧ sh.type = shtProgbits
    · rw [if_pos hprogbits, Option.isSome_map, nameFrom_isSome_iff (Nat.le_add_left _ _)]
      exact ⟨fun h _ => h, fun h => h (.inl hprogbits)⟩
    · rw [if_neg hprogbits]
      by_cases hnobits : sh.type = shtNobits
      · rw [if_pos hnobits, Option.isSome_map, nameFrom_isSome_iff (Nat.le_add_left _ _)]
        exact ⟨fun h _ => h, fun h => h (.inr hnobits)⟩
      · rw [if_neg hnobits]
        exact ⟨fun _ h => absurd h (not_or.mpr ⟨hprogbits, hnobits⟩), fun _ => rfl⟩

/-- A section is recorded when it is asked for, and its name ends in the table. -/
theorem findSection_join_isSome_iff : (findSection table size sh key).join.isSome ↔
    Asked table size sh key ∧ NameEnds table size sh key := by
  rw [← findSection_isSome_iff]
  cases key with
  | some s =>
    rw [Asked, StringAt]
    rw [show (sh.name.toNat + strlen s < size ∧ ∀ k, k < strlen s + 1 →
      table (sh.name.toNat + k) = s.byte k) ↔ _ from nameIs_eq_some_true_iff.symm, findSection]
    rcases nameIs table size sh.name.toNat s.chars with - | - | -
    · simp
    · simp
    · simp
  | none =>
    rw [findSection, Asked, Wanted]
    by_cases hprogbits : sh.addr ≠ 0 ∧ sh.type = shtProgbits
    · rw [if_pos hprogbits]
      cases nameFrom table size size sh.name.toNat with
      | none => simp
      | some name => exact ⟨fun _ => ⟨.inl hprogbits, rfl⟩, fun _ => rfl⟩
    · rw [if_neg hprogbits]
      by_cases hnobits : sh.type = shtNobits
      · rw [if_pos hnobits]
        cases nameFrom table size size sh.name.toNat with
        | none => simp
        | some name => exact ⟨fun _ => ⟨.inr hnobits, rfl⟩, fun _ => rfl⟩
      · rw [if_neg hnobits]
        exact ⟨(fun h => nomatch h), fun h => absurd h.1 (not_or.mpr ⟨hprogbits, hnobits⟩)⟩

/-- What a section gives in the first bytes of a table it gives in the table. -/
theorem findSection_mono (hle : size' ≤ size) (hsame : ∀ k, k < size' → table' k = table k)
    {res : Option ElfSection} (h : findSection table' size' sh key = some res) :
    findSection table size sh key = some res := by
  cases key with
  | some s =>
    rw [findSection, Option.map_eq_some_iff] at h ⊢
    obtain ⟨same, hname, hres⟩ := h
    exact ⟨same, nameIs_mono hle hsame hname, hres⟩
  | none =>
    rw [findSection] at h ⊢
    by_cases hprogbits : sh.addr ≠ 0 ∧ sh.type = shtProgbits
    · rw [if_pos hprogbits, Option.map_eq_some_iff] at h ⊢
      obtain ⟨name, hname, hres⟩ := h
      exact ⟨name, nameFrom_mono hle hsame hle hname, hres⟩
    · rw [if_neg hprogbits] at h ⊢
      by_cases hnobits : sh.type = shtNobits
      · rw [if_pos hnobits, Option.map_eq_some_iff] at h ⊢
        obtain ⟨name, hname, hres⟩ := h
        exact ⟨name, nameFrom_mono hle hsame hle hname, hres⟩
      · rw [if_neg hnobits] at h ⊢
        exact h

/-- The same bytes end the name in the first bytes of two tables. -/
theorem nameEnds_congr (hsame : ∀ k, k < size → table' k = table k) :
    NameEnds table' size sh key ↔ NameEnds table size sh key := by
  cases key with
  | some s =>
    refine exists_congr fun k => and_congr_right fun _ => and_congr_right fun hk => ?_
    rw [hsame _ hk]
  | none =>
    refine forall_congr' fun _ => exists_congr fun k => and_congr_right fun hk => ?_
    rw [hsame _ hk]

/-- A section that is asked for, and whose name ends in the first bytes of the table, is asked
for there. -/
theorem Asked.of_ends (h : Asked table size sh key) (hends : NameEnds table size' sh key) :
    Asked table size' sh key := by
  cases key with
  | some s =>
    obtain ⟨k, hk, hin, hend⟩ := hends
    have hlen : k = strlen s := hend.elim id fun hne => absurd (h.2 k (Nat.lt_succ_of_le hk)) hne
    exact ⟨hlen ▸ hin, h.2⟩
  | none => exact h

/-- The same bytes are the same section. -/
theorem asked_congr (hsame : ∀ k, k < size → table' k = table k) :
    Asked table' size sh key ↔ Asked table size sh key := by
  cases key with
  | some s =>
    refine and_congr_right fun hin => forall_congr' fun k => imp_congr_right fun hk => ?_
    rw [hsame _ (by omega)]
  | none => exact Iff.rfl

end

/-! ## The file and the memory -/

section
variable {host : ElfHost} {file : List (BitVec 8)} {header : Ehdr} {strtab : Shdr}

theorem readInto_of_lt {offset k : Nat} {old old' : Nat → BitVec 8}
    (h : offset + k < file.length) : readInto file offset old k = readInto file offset old' k := by
  rw [readInto, readInto, List.getElem?_eq_getElem h]
  rfl

theorem getD_eq_readInto (offset k : Nat) :
    file.getD (offset + k) 0 = readInto file offset (fun _ => 0) k :=
  List.getD_eq_getElem?_getD

/-- A word depends on its four bytes. -/
theorem word_congr {e : Endian} {m m' : Nat → BitVec 8} {a n : Nat}
    (h : ∀ k, k < n → m k = m' k) (hn : a + 4 ≤ n) : word e m a = word e m' a := by
  rw [word, word, h a (by omega), h (a + 1) (by omega), h (a + 2) (by omega), h (a + 3) (by omega)]

/-- A header that is in the file is read as it is. -/
theorem sectionHeaders_eq {i : Nat} (h : HasShdr file header i) : sectionHeaders host file header i =
    shdrOf host.endian (fun k => file.getD (header.shoff.toNat + k) 0) i := by
  rw [HasShdr, shdrSize] at h
  have hsame : ∀ k, k < 40 * i + 40 → readInto file header.shoff.toNat host.stack k =
      file.getD (header.shoff.toNat + k) 0 := fun k hk => by
    rw [getD_eq_readInto]
    exact readInto_of_lt (by omega)
  have hword : ∀ a, a + 4 ≤ 40 * i + 40 →
      word host.endian (readInto file header.shoff.toNat host.stack) a =
        word host.endian (fun k => file.getD (header.shoff.toNat + k) 0) a :=
    fun a ha => word_congr hsame ha
  rw [sectionHeaders, shdrOf, shdrOf, shdrSize]
  simp (disch := omega) only [hword]

/-- The names that are in the file are read as they are. -/
theorem sectionNames_eq {k : Nat} (h : k < tableLength file strtab) :
    file.getD (strtab.offset.toNat + k) 0 = sectionNames host file strtab k := by
  rw [tableLength] at h
  rw [getD_eq_readInto]
  exact readInto_of_lt (by omega)

/-- The record of a section of the file, from what is read. -/
theorem fileSection_eq {p : Nat × Option CStr} (hp : HasShdr file header p.1)
    (hndx : HasShdr file header header.shstrndx.toNat)
    (hstrtab : strtab = sectionHeaders host file header header.shstrndx.toNat) :
    fileSection host.endian file header p =
      (findSection (fun k => file.getD (strtab.offset.toNat + k) 0) (tableLength file strtab)
        (sectionHeaders host file header p.1) p.2).join := by
  rw [fileSection, if_pos ⟨hp, hndx⟩, ← sectionHeaders_eq hp, ← sectionHeaders_eq hndx, hstrtab]

/-- What the file has is found. -/
theorem find_of_fileSection {p : Nat × Option CStr} {res : ElfSection}
    (hstrtab : strtab = sectionHeaders host file header header.shstrndx.toNat)
    (h : fileSection host.endian file header p = some res) :
    (findSection (sectionNames host file strtab) strtab.size.toNat
      (sectionHeaders host file header p.1) p.2).join = some res := by
  have hin : HasShdr file header p.1 ∧ HasShdr file header header.shstrndx.toNat := by
    by_contra hout
    rw [fileSection, if_neg hout] at h
    exact nomatch h
  rw [fileSection_eq hin.1 hin.2 hstrtab, Option.join_eq_some_iff] at h
  rw [Option.join_eq_some_iff]
  exact findSection_mono (Nat.min_le_left _ _) (fun k hk => sectionNames_eq hk) h

/-- The file has a section that is asked for when it has its header, that of the name table
and its name. -/
theorem fileSection_isSome_iff {p : Nat × Option CStr}
    (hstrtab : strtab = sectionHeaders host file header header.shstrndx.toNat)
    (hasked : Asked (sectionNames host file strtab) strtab.size.toNat
      (sectionHeaders host file header p.1) p.2) :
    (fileSection host.endian file header p).isSome ↔
      HasShdr file header p.1 ∧ HasShdr file header header.shstrndx.toNat ∧
        NameEnds (sectionNames host file strtab) (tableLength file strtab)
          (sectionHeaders host file header p.1) p.2 := by
  by_cases hin : HasShdr file header p.1 ∧ HasShdr file header header.shstrndx.toNat
  · have hsame : ∀ k, k < tableLength file strtab →
        file.getD (strtab.offset.toNat + k) 0 = sectionNames host file strtab k :=
      fun k hk => sectionNames_eq hk
    rw [fileSection_eq hin.1 hin.2 hstrtab, findSection_join_isSome_iff, asked_congr hsame,
      nameEnds_congr hsame]
    exact ⟨fun h => ⟨hin.1, hin.2, h.2⟩, fun h => ⟨hasked.of_ends h.2.2, h.2.2⟩⟩
  · rw [fileSection, if_neg hin]
    exact ⟨(fun h => nomatch h), fun h => absurd ⟨h.1, h.2.1⟩ hin⟩

end

/-! ## Opening -/

/-- The search of the two loops records the sections of the file exactly when the tables are
regular. -/
theorem collect_robust_iff {host : ElfHost} {file : List (BitVec 8)} {header : Ehdr}
    {req : ElfRequest} {strtab : Shdr}
    (hstrtab : strtab = sectionHeaders host file header header.shstrndx.toNat) :
    (∃ found, collect maxSections (fun p : Nat × Option CStr =>
        findSection (sectionNames host file strtab) strtab.size.toNat
          (sectionHeaders host file header p.1) p.2) (elfPairs header.shnum.toNat req.keys) [] =
        some found ∧ found = fileSections host.endian file header req) ↔
      ElfRegular host file req header strtab := by
  set find := fun p : Nat × Option CStr =>
    findSection (sectionNames host file strtab) strtab.size.toNat
      (sectionHeaders host file header p.1) p.2 with hfind
  set pairs := elfPairs header.shnum.toNat req.keys with hpairs
  have hends (p : Nat × Option CStr) : (find p).isSome ↔
      NameEnds (sectionNames host file strtab) strtab.size.toNat
        (sectionHeaders host file header p.1) p.2 := findSection_isSome_iff
  have hjoin (p : Nat × Option CStr) : (find p).join.isSome ↔
      Asked (sectionNames host file strtab) strtab.size.toNat
        (sectionHeaders host file header p.1) p.2 ∧ _ := findSection_join_isSome_iff
  -- a search that does not fail records as many sections as are asked for
  have hcount (hall : ∀ p ∈ pairs, (find p).isSome) :
      (pairs.filterMap fun p => (find p).join).length = pairs.countP fun p =>
        Asked (sectionNames host file strtab) strtab.size.toNat
          (sectionHeaders host file header p.1) p.2 := by
    rw [List.length_filterMap_eq_countP]
    refine List.countP_congr fun p hp => ?_
    rw [hjoin, decide_eq_true_iff]
    exact and_iff_left ((hends p).mp (hall p hp))
  have hsame : (pairs.filterMap fun p => (find p).join) = fileSections host.endian file header req ↔
      _ := filterMap_eq_iff fun p _ res h => find_of_fileSection hstrtab h
  constructor
  · rintro ⟨found, hfound, hfile⟩
    obtain ⟨hall, rfl, hlen⟩ := collect_nil_eq_some_iff.mp hfound
    refine ⟨fun p hp => (hends p).mp (hall p hp), hcount hall ▸ hlen, fun p hp hasked => ?_⟩
    rw [← fileSection_isSome_iff hstrtab hasked]
    exact hsame.mp hfile p hp ((hjoin p).mpr ⟨hasked, (hends p).mp (hall p hp)⟩)
  · intro h
    have hall : ∀ p ∈ pairs, (find p).isSome := fun p hp => (hends p).mpr (h.ends p hp)
    refine ⟨_, collect_nil_eq_some_iff.mpr ⟨hall, rfl, (hcount hall).trans_le h.few⟩,
      hsame.mpr fun p hp hsome => ?_⟩
    have hasked := ((hjoin p).mp hsome).1
    exact (fileSection_isSome_iff hstrtab hasked).mpr (h.whole p hp hasked)

/-- A call that is refused returns `NULL`. -/
theorem elfOpen_of_refused {host : ElfHost} {file : List (BitVec 8)} {req : ElfRequest}
    (h : ElfRefused host file req) : elfOpen host file req = .null := by
  rw [elfOpen]
  by_cases hcount : req.sectionCount > maxSections
  · exact if_pos hcount
  rw [if_neg hcount]
  by_cases hopens : host.opens = false
  · exact if_pos hopens
  rw [if_neg hopens]
  by_cases halloc : host.elfAlloc = false
  · exact if_pos halloc
  rw [if_neg halloc]
  by_cases hread : min ehdrSize file.length ≠ ehdrSize
  · exact if_pos hread
  rw [if_neg hread]
  dsimp only
  by_cases hmagic : (ehdrOf host.endian fun k => file.getD k 0).ident.take 4 ≠ elfMagic
  · exact if_pos hmagic
  rw [if_neg hmagic]
  by_cases hmachine : (ehdrOf host.endian fun k => file.getD k 0).machine ≠ emMips
  · exact if_pos hmachine
  rcases h with h | h | h | h | h | h
  · exact absurd h hcount
  · exact absurd h hopens
  · exact absurd h halloc
  · omega
  · exact absurd h hmagic
  · exact absurd h hmachine

/-- A call that is not refused reads the section headers. -/
theorem elfOpen_of_not_refused {host : ElfHost} {file : List (BitVec 8)} {req : ElfRequest}
    (h : ¬ ElfRefused host file req) :
    let header := ehdrOf host.endian fun k => file.getD k 0
    let strtab := sectionHeaders host file header header.shstrndx.toNat
    elfOpen host file req =
      if header.shnum ≤ header.shstrndx then .fault
      else if host.tableAlloc = false then .null
      else match collect maxSections (fun p : Nat × Option CStr =>
          findSection (sectionNames host file strtab) strtab.size.toNat
            (sectionHeaders host file header p.1) p.2)
          (elfPairs header.shnum.toNat req.keys) [] with
        | none => .fault
        | some found => .opened ⟨header, found.length, found⟩ := by
  intro header strtab
  obtain ⟨hcount, hopens, halloc, hsize, hmagic, hmachine⟩ :
      ¬ req.sectionCount > maxSections ∧ ¬ host.opens = false ∧ ¬ host.elfAlloc = false ∧
        ¬ file.length < ehdrSize ∧ ¬ header.ident.take 4 ≠ elfMagic ∧ ¬ header.machine ≠ emMips := by
    simpa only [ElfRefused, not_or] using h
  have hread : ¬ min ehdrSize file.length ≠ ehdrSize := by omega
  rw [elfOpen, if_neg hcount, if_neg hopens, if_neg halloc, if_neg hread]
  exact (if_neg hmagic).trans (if_neg hmachine)

/-- On every host, for every file and every request, `elf_open` is robust exactly when it
refuses the call before it reads the section headers, or the index of the header of the name
table is that of a header and there is no memory for the names or the tables are regular. -/
theorem elfOpen_robust_iff (host : ElfHost) (file : List (BitVec 8)) (req : ElfRequest) :
    let header := ehdrOf host.endian fun k => file.getD k 0
    ElfRobust host.endian file req (elfOpen host file req) ↔
      ElfRefused host file req ∨
        header.shstrndx < header.shnum ∧ (host.tableAlloc = false ∨
          ElfRegular host file req header
            (sectionHeaders host file header header.shstrndx.toNat)) := by
  intro header
  by_cases hrefused : ElfRefused host file req
  · rw [elfOpen_of_refused hrefused]
    exact ⟨fun _ => .inl hrefused, fun _ => trivial⟩
  rw [elfOpen_of_not_refused hrefused, ← collect_robust_iff rfl]
  simp only [hrefused, false_or]
  by_cases hndx : header.shnum ≤ header.shstrndx
  · rw [if_pos hndx]
    exact ⟨False.elim, fun h => absurd h.1 (BitVec.not_lt.mpr hndx)⟩
  rw [if_neg hndx]
  by_cases halloc : host.tableAlloc = false
  · rw [if_pos halloc]
    exact ⟨fun _ => ⟨BitVec.not_le.mp hndx, .inl halloc⟩, fun _ => trivial⟩
  · rw [if_neg halloc]
    split
    next hcollect =>
      refine ⟨False.elim, fun h => ?_⟩
      obtain ⟨found, hfound, -⟩ := h.2.resolve_left halloc
      rw [hcollect] at hfound
      exact nomatch hfound
    next found hcollect =>
      constructor
      · exact fun h => ⟨BitVec.not_le.mp hndx, .inr ⟨found, hcollect, h.2.2⟩⟩
      · intro h
        obtain ⟨found', hfound, hfile⟩ := h.2.resolve_left halloc
        obtain rfl : found = found' := Option.some.inj (hcollect.symm.trans hfound)
        exact ⟨rfl, (collect_nil_eq_some_iff.mp hcollect).2.2, hfile⟩

/-! ## Files that are not safe -/

/-- A host without failures. -/
def elfPc : ElfHost where
  endian := .little
  opens := true
  elfAlloc := true
  tableAlloc := true
  stack := fun _ => 0
  heap := fun _ => 0

/-- A header with the section headers behind it. -/
def elfFile (shnum shstrndx : BitVec 8) (sections : List (BitVec 8)) : List (BitVec 8) :=
  elfMagic ++ List.replicate 14 0 ++ [8, 0] ++ List.replicate 12 0 ++ [52, 0, 0, 0] ++
    List.replicate 12 0 ++ [shnum, 0, shstrndx, 0] ++ sections

/-- A header of type `SHT_NOBITS`, as the name table the first 16 bytes of the file, with an
empty name. -/
def nobitsHeader : List (BitVec 8) :=
  [4, 0, 0, 0, 8, 0, 0, 0] ++ List.replicate 12 0 ++ [16, 0, 0, 0] ++ List.replicate 16 0

/-- Without section headers the loader reads one, the ninth section has no place, and an
index of 2 is that of no header of a file with two. -/
theorem elfOpen_not_robust :
    elfOpen elfPc (elfFile 0 0 []) (.all 0) = .fault ∧
    elfOpen elfPc (elfFile 2 2 (List.replicate 2 nobitsHeader).flatten) (.all 0) = .fault ∧
    elfOpen elfPc (elfFile 9 0 (List.replicate 9 nobitsHeader).flatten) (.all 0) = .fault ∧
    ¬ ElfRobust .little (elfFile 9 0 (List.replicate 9 nobitsHeader).flatten) (.all 0)
      (elfOpen elfPc (elfFile 9 0 (List.replicate 9 nobitsHeader).flatten) (.all 0)) := by
  have hnine : elfOpen elfPc (elfFile 9 0 (List.replicate 9 nobitsHeader).flatten) (.all 0) =
      .fault := by decide +kernel
  refine ⟨by decide +kernel, by decide +kernel, hnine, ?_⟩
  rw [hnine]
  exact id

end Ko6.Tools
