import Ko6.Lib.Mem
import Ko6.Lib.Round
import Ko6.Lib.Tiling

set_option autoImplicit false

/-!
# Ulib: the user heap

`malloc` and `free` of the user library.  The heap is a row of blocks, each with
one word of information before its content; a block is found by following the
sizes from the first one.  Pointers are 32-bit addresses and wrap around.
-/

namespace Ko6.Ulib

open Ko6.Lib

/-! ## Constants and pointers -/

/-- `MAGIC_HEAP`. -/
def magicHeap : BitVec 7 := 0x5A

/-- `BINFO_SZ`, the bytes of a `block_info_t`. -/
def binfoSz : Nat := 4

/-- `p + n` for a `block_info_t * p`. -/
def ptrAdd (p n : Nat) : Nat := (p + 4 * n) % 2 ^ 32

/-- `p - q` for two `block_info_t *`. -/
def ptrDiff (p q : Nat) : BitVec 32 := (BitVec.ofNat 32 p - BitVec.ofNat 32 q).sshiftRight 2

/-! ## The heap -/

/-- The static variables `CacheLineSize` and `Heap`. -/
structure Heap where
  cacheLineSize : Nat
  beg : Nat
  end_ : Nat

/-- The words of the heap.  No loop runs over more blocks than that, as long as
the blocks tile the heap. -/
def Heap.words (H : Heap) : Nat := (H.end_ - H.beg) / 4

section
variable (m : Mem) (p : Nat)

/-- `p->full`. -/
def full : BitVec 1 := (m.readWord p).extractLsb' 0 1

/-- `p->magic`. -/
def magic : BitVec 7 := (m.readWord p).extractLsb' 1 7

/-- `p->size`. -/
def blockSize : Nat := ((m.readWord p).extractLsb' 8 24).toNat

def setFull (v : BitVec 1) : Mem := m.writeWord p (setField (m.readWord p) 0 1 v)
def setMagic (v : BitVec 7) : Mem := m.writeWord p (setField (m.readWord p) 1 7 v)
def setSize (v : BitVec 24) : Mem := m.writeWord p (setField (m.readWord p) 8 24 v)

end

/-! ## The allocator -/

/-- The search loop of `try_malloc`, from the block `new` on. -/
def scan (H : Heap) (m : Mem) (size : Nat) : Nat → Nat → Option Nat
  | 0, _ => none
  | n + 1, new =>
    if new < H.end_ ∧ (full m new = 1 ∨ blockSize m new < size) then
      scan H m size n (ptrAdd new (blockSize m new))
    else some new

/-- The end of `try_malloc`: the block `new` is taken, and cut if it is longer
than `size` words. -/
def take (H : Heap) (m : Mem) (new size : Nat) : Mem :=
  let m := setFull m new 1
  let oldnext := ptrAdd new (blockSize m new)
  let newnext := ceil (ptrAdd new size) H.cacheLineSize
  if newnext ≠ oldnext then
    let m := setSize m new ((ptrDiff newnext new).setWidth 24)
    let m := setMagic m new magicHeap
    let m := setSize m newnext ((ptrDiff oldnext newnext).setWidth 24)
    let m := setFull m newnext 0
    setMagic m newnext magicHeap
  else m

/-- The words `try_malloc` needs for a request, its information included. -/
def needed (H : Heap) (size : Nat) : Nat := ceil (size + binfoSz) H.cacheLineSize / 4

/-- `try_malloc`; 0 is `NULL`. -/
def tryMalloc (H : Heap) (m : Mem) (size : Nat) : Option (Nat × Mem) := do
  let size := needed H size
  let new ← scan H m size (H.words + 1) H.beg
  if H.end_ ≤ new then some (0, m)
  else some (ptrAdd new 1, take H m new size)

/-- The inner loop of `merge`: the free blocks after `ptr` are glued to it. -/
def glue (H : Heap) (ptr : Nat) : Nat → Mem → Option Mem
  | 0, _ => none
  | n + 1, m =>
    let next := ptrAdd ptr (blockSize m ptr)
    if next ≠ H.end_ ∧ full m next = 0 then
      glue H ptr n (setSize m ptr (BitVec.ofNat 24 (blockSize m ptr + blockSize m next)))
    else some m

/-- The body of the outer loop of `merge`. -/
def mergeBlock (H : Heap) (ptr : Nat) (m : Mem) : Option Mem :=
  if full m ptr = 0 then glue H ptr (H.words + 1) m else some m

/-- The outer loop of `merge`. -/
def merge (H : Heap) : Nat → Nat → Mem → Option Mem
  | 0, _, _ => none
  | n + 1, ptr, m =>
    if ptr = H.end_ then some m
    else do
      let m ← mergeBlock H ptr m
      merge H n (ptrAdd ptr (blockSize m ptr)) m

/-- The program's memory and its `errno`. -/
structure User where
  mem : Mem
  errno : Nat

/-- `ENOMEM`. -/
def enomem : Nat := 10

/-- `malloc`. -/
def malloc (H : Heap) (size : Nat) (u : User) : Option (Nat × User) := do
  let (ptr, m) ← tryMalloc H u.mem size
  if ptr = 0 then do
    let m ← merge H (H.words + 1) H.beg m
    let (ptr, m) ← tryMalloc H m size
    some (ptr, { mem := m, errno := if ptr = 0 then enomem else u.errno })
  else some (ptr, { u with mem := m })

/-- The loop of `calloc`: the words `ptr[n - 1]` to `ptr[0]` are set to 0. -/
def clearLoop (ptr : Nat) : Nat → Mem → Mem
  | 0, m => m
  | n + 1, m => clearLoop ptr n (m.writeWord (ptrAdd ptr n) 0)

/-- `calloc`. -/
def calloc (H : Heap) (n size : Nat) (u : User) : Option (Nat × User) := do
  let total := n * size % 2 ^ 32
  let (ptr, u) ← malloc H total u
  if ptr = 0 then some (0, u)
  else
    -- `total - 1` is a `size_t`: for no bytes it is 0xFFFFFFFF
    let i := (total + 2 ^ 32 - 1) % 2 ^ 32 / 4
    some (ptr, { u with mem := clearLoop ptr (i + 1) u.mem })

/-- `free`; `none` is `exit (1)`. -/
def free (ptr : Nat) (u : User) : Option User :=
  let info := (ptr + 2 ^ 32 - binfoSz) % 2 ^ 32
  if ptr = 0 ∨ full u.mem info = 0 ∨ magic u.mem info ≠ magicHeap then none
  else some { u with mem := setFull u.mem info 0 }

/-- `malloc_init`, with the answers of `cachelinesize` and `sbrk`; `none` is
`exit (2)`. -/
def mallocInit (line beg brk : Nat) (u : User) : Option (Heap × User) :=
  if brk = 2 ^ 32 - 1 then none
  else
    let H : Heap := { cacheLineSize := line, beg := floor beg line, end_ := floor brk line }
    let m := setFull u.mem H.beg 0
    let m := setMagic m H.beg magicHeap
    let m := setSize m H.beg ((ptrDiff H.end_ H.beg).setWidth 24)
    some (H, { u with mem := m })

/-! ## Block informations -/

/-- The address after the block at `p`. -/
def nextBlock (m : Mem) (p : Nat) : Nat := p + 4 * blockSize m p

section
variable {m m' : Mem} {p q a : Nat} {v : BitVec 24} {f : BitVec 1} {g : BitVec 7}

theorem blockSize_lt : blockSize m p < 2 ^ 24 := BitVec.isLt _

@[simp] theorem full_setFull : full (setFull m p f) p = f := by
  rw [full, setFull, Mem.readWord_writeWord]
  exact extract_setField (by decide)

@[simp] theorem magic_setFull : magic (setFull m p f) p = magic m p := by
  rw [magic, setFull, Mem.readWord_writeWord]
  exact extract_setField_of_disjoint (.inl (by decide))

@[simp] theorem blockSize_setFull : blockSize (setFull m p f) p = blockSize m p := by
  rw [blockSize, setFull, Mem.readWord_writeWord]
  exact congrArg _ (extract_setField_of_disjoint (.inl (by decide)))

@[simp] theorem full_setMagic : full (setMagic m p g) p = full m p := by
  rw [full, setMagic, Mem.readWord_writeWord]
  exact extract_setField_of_disjoint (.inr (by decide))

@[simp] theorem magic_setMagic : magic (setMagic m p g) p = g := by
  rw [magic, setMagic, Mem.readWord_writeWord]
  exact extract_setField (by decide)

@[simp] theorem blockSize_setMagic : blockSize (setMagic m p g) p = blockSize m p := by
  rw [blockSize, setMagic, Mem.readWord_writeWord]
  exact congrArg _ (extract_setField_of_disjoint (.inl (by decide)))

@[simp] theorem full_setSize : full (setSize m p v) p = full m p := by
  rw [full, setSize, Mem.readWord_writeWord]
  exact extract_setField_of_disjoint (.inr (by decide))

@[simp] theorem magic_setSize : magic (setSize m p v) p = magic m p := by
  rw [magic, setSize, Mem.readWord_writeWord]
  exact extract_setField_of_disjoint (.inr (by decide))

@[simp] theorem blockSize_setSize : blockSize (setSize m p v) p = v.toNat := by
  rw [blockSize, setSize, Mem.readWord_writeWord]
  exact congrArg _ (extract_setField (by decide))

/-- Only the word at `p` differs. -/
def Only (p : Nat) (m m' : Mem) : Prop := ∀ a, a < p ∨ p + 4 ≤ a → m' a = m a

theorem only_setFull : Only p m (setFull m p f) := fun _ h => Mem.writeWord_of_outside h
theorem only_setMagic : Only p m (setMagic m p g) := fun _ h => Mem.writeWord_of_outside h
theorem only_setSize : Only p m (setSize m p v) := fun _ h => Mem.writeWord_of_outside h

theorem Only.trans {m'' : Mem} (h : Only p m m') (h' : Only p m' m'') : Only p m m'' :=
  fun a ha => (h' a ha).trans (h a ha)

/-- The information of a block is the word at its beginning. -/
structure SameInfo (m m' : Mem) (p : Nat) : Prop where
  full : full m' p = full m p
  magic : magic m' p = magic m p
  size : blockSize m' p = blockSize m p

theorem sameInfo_of_bytes (h : ∀ a, p ≤ a → a < p + 4 → m' a = m a) : SameInfo m m' p := by
  have hword := Mem.readWord_congr h
  constructor
  · rw [full, full, hword]
  · rw [magic, magic, hword]
  · rw [blockSize, blockSize, hword]

theorem Only.sameInfo (h : Only p m m') (hq : q + 4 ≤ p ∨ p + 4 ≤ q) : SameInfo m m' q :=
  sameInfo_of_bytes fun a hlo hhi => h a (by omega)

theorem SameInfo.next (h : SameInfo m m' p) : nextBlock m' p = nextBlock m p := by
  rw [nextBlock, nextBlock, h.size]

end

end Ko6.Ulib
