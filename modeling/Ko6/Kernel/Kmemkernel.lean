import Ko6.Lib.Mem
import Ko6.Common.Lists

set_option autoImplicit false

/-!
# Kernel: the slab allocator of `kernel/kmemkernel.c`

The kernel heap is the pages of `[kmb, kme)`.  `Slab[0]` lists the free pages,
`Slab[i]` the free objects of `i` cache lines, and the links of both kinds are
stored in the free memory itself.  `Page[]` has one 64-bit descriptor a page, a
union of a slab view and a block view whose bit fields overlap.

The model keeps the machine's memory as bytes and the arrays `Page[]` and
`ObjectsThisSize[]` beside it.  A panic is `none`.  The two loops whose end
depends on the lists carry fuel, and running out of it is `none` as well, so a
result says that the loop has ended.
-/

namespace Ko6.Kernel

open Ko6.Lib Ko6.Common

/-- `PAGE_SIZE`. -/
abbrev pageSize : Nat := 4096

/-- What the linker script and the hardware give to `kmemkernel_init`: the true
line size, the addresses of the kernel's uninitialised data and of `Slab[]` in
it, and the heap.  `Page[]` has an entry for each page of `DATARAMSIZE`, which
the heap must fit in. -/
structure Layout where
  lineShift : Nat
  kbssOrigin : Nat
  slabBase : Nat
  kmb : Nat
  nbPages : Nat
  line_min : 4 ≤ lineShift
  line_max : lineShift ≤ 12
  origin_le : kbssOrigin ≤ slabBase
  slab_le : slabBase + 256 * 8 ≤ kmb
  kmb_aligned : pageSize ∣ kmb
  pages_pos : 0 < nbPages
  pages_le : nbPages * pageSize ≤ 256 * 2 ^ 20
  kme_lt : kmb + nbPages * pageSize < 2 ^ 32

namespace Layout

variable (L : Layout)

/-- `kme`. -/
def kme : Nat := L.kmb + L.nbPages * pageSize

/-- `CacheLineSize`. -/
def cacheLineSize : Nat := 2 ^ L.lineShift

/-- `MaxLineSlab`. -/
def maxLineSlab : Nat := pageSize / L.cacheLineSize

/-- `NBLINE`. -/
def nbline (n : Nat) : Nat := (n + L.cacheLineSize - 1) / L.cacheLineSize

/-- `&Slab[i]`. -/
def slab (i : Nat) : Nat := L.slabBase + 8 * i

/-- `PAGE`: the difference of the addresses is a signed 32-bit integer, the
remainder an unsigned one. -/
def pageIdx (a : Nat) : Nat :=
  ((BitVec.ofNat 32 a - BitVec.ofNat 32 L.kmb).sshiftRight 12).toNat % L.nbPages

end Layout

/-! ## Page descriptors -/

/-- The values of `type`. -/
inductive PageType where
  | free | slab | block
  deriving DecidableEq, Repr

def PageType.toBits : PageType → BitVec 2
  | .free => 0
  | .slab => 1
  | .block => 2

/-- `page_t.raw`. -/
abbrev PageDesc : Type := BitVec 64

namespace PageDesc

/-- `type`, at the same place in both views. -/
def type (d : PageDesc) : BitVec 2 := d.extractLsb' 0 2

/-- `slab.lines`. -/
def lines (d : PageDesc) : BitVec 8 := d.extractLsb' 16 8

/-- `slab.nbused`. -/
def nbused (d : PageDesc) : BitVec 8 := d.extractLsb' 24 8

/-- `block.bdev`. -/
def bdev (d : PageDesc) : BitVec 4 := d.extractLsb' 2 4

/-- `block.dirty`. -/
def dirty (d : PageDesc) : BitVec 1 := d.extractLsb' 6 1

/-- `block.refcount`: the bits of `slab.nbused`. -/
def refcount (d : PageDesc) : BitVec 8 := d.extractLsb' 24 8

/-- `block.lba`. -/
def lba (d : PageDesc) : BitVec 32 := d.extractLsb' 32 32

def setType (d : PageDesc) (t : PageType) : PageDesc := setField d 0 2 t.toBits
def setLines (d : PageDesc) (v : BitVec 8) : PageDesc := setField d 16 8 v
def setNbused (d : PageDesc) (v : BitVec 8) : PageDesc := setField d 24 8 v
def setBdev (d : PageDesc) (v : BitVec 4) : PageDesc := setField d 2 4 v
def setDirty (d : PageDesc) (v : BitVec 1) : PageDesc := setField d 6 1 v
def setValid (d : PageDesc) (v : BitVec 1) : PageDesc := setField d 8 1 v
def setRefcount (d : PageDesc) (v : BitVec 8) : PageDesc := setField d 24 8 v
def setLba (d : PageDesc) (v : BitVec 32) : PageDesc := setField d 32 32 v

end PageDesc

/-! ## The state -/

/-- The machine's memory, `Page[]` and `ObjectsThisSize[]`. -/
structure Kmem where
  mem : Mem
  page : Nat → PageDesc
  objects : Nat → BitVec 32

namespace Kmem

/-- An assignment to a field of `Page[i]`. -/
def modPage (s : Kmem) (i : Nat) (f : PageDesc → PageDesc) : Kmem :=
  { s with page := Function.update s.page i (f (s.page i)) }

/-- An assignment to `ObjectsThisSize[i]`. -/
def modObjects (s : Kmem) (i : Nat) (f : BitVec 32 → BitVec 32) : Kmem :=
  { s with objects := Function.update s.objects i (f (s.objects i)) }

@[simp] theorem modPage_page (s : Kmem) (i : Nat) (f : PageDesc → PageDesc) :
    (s.modPage i f).page = Function.update s.page i (f (s.page i)) := rfl

@[simp] theorem modPage_mem (s : Kmem) (i : Nat) (f : PageDesc → PageDesc) :
    (s.modPage i f).mem = s.mem := rfl

@[simp] theorem modPage_objects (s : Kmem) (i : Nat) (f : PageDesc → PageDesc) :
    (s.modPage i f).objects = s.objects := rfl

@[simp] theorem modObjects_page (s : Kmem) (i : Nat) (f : BitVec 32 → BitVec 32) :
    (s.modObjects i f).page = s.page := rfl

@[simp] theorem modObjects_mem (s : Kmem) (i : Nat) (f : BitVec 32 → BitVec 32) :
    (s.modObjects i f).mem = s.mem := rfl

/-- A pointer stored at `a`. -/
def storePtr (s : Kmem) (a v : Nat) : Kmem :=
  { s with mem := s.mem.writeWord a (BitVec.ofNat 32 v) }

/-- The pointer stored at `a`. -/
def loadPtr (s : Kmem) (a : Nat) : Nat := (s.mem.readWord a).toNat

end Kmem

/-- The addresses at which the allocator keeps `list_t` structures: the roots
`Slab[i]`, and the first bytes of a line of the heap. -/
def Layout.IsCell (L : Layout) (a : Nat) : Prop :=
  (∃ i, i < 256 ∧ a = L.slab i) ∨ (L.kmb ≤ a ∧ a < L.kme ∧ 16 ∣ a)

theorem Layout.IsCell.fits {L : Layout} {a : Nat} (h : L.IsCell a) : a < 2 ^ 32 := by
  have hk := L.kme_lt
  have hs := L.slab_le
  rcases h with ⟨i, hi, rfl⟩ | ⟨-, hlt, -⟩
  · simp only [Layout.slab]
    omega
  · simp only [Layout.kme] at hlt
    omega

/-- Two cells do not overlap. -/
theorem Layout.IsCell.apart {L : Layout} {a b : Nat} (ha : L.IsCell a) (hb : L.IsCell b)
    (hne : a ≠ b) : a + 8 ≤ b ∨ b + 8 ≤ a := by
  have hs := L.slab_le
  rcases ha with ⟨i, hi, rfl⟩ | ⟨hla, -, hda⟩
  · rcases hb with ⟨j, hj, rfl⟩ | ⟨hlb, -, -⟩
    · simp only [Layout.slab] at hne ⊢
      omega
    · simp only [Layout.slab]
      omega
  · rcases hb with ⟨j, hj, rfl⟩ | ⟨-, -, hdb⟩
    · simp only [Layout.slab]
      omega
    · omega

/-- The links of the kernel's lists in memory: `next` first, then `prev`. -/
def cells (L : Layout) : CellStore Kmem Nat where
  IsCell := L.IsCell
  next s a := s.loadPtr a
  prev s a := s.loadPtr (a + 4)
  setNext s a v := s.storePtr a v
  setPrev s a v := s.storePtr (a + 4) v
  next_setNext s a v _ hv := by
    simp only [Kmem.loadPtr, Kmem.storePtr, Mem.readWord_writeWord, BitVec.toNat_ofNat]
    exact Nat.mod_eq_of_lt hv.fits
  next_setNext_ne s a b v ha hb hne := by
    have hap := ha.apart hb hne.symm
    simp only [Kmem.loadPtr, Kmem.storePtr]
    rw [Mem.readWord_writeWord_of_disjoint (by omega)]
  prev_setNext s a b v ha hb := by
    have hap := ha.apart hb
    simp only [Kmem.loadPtr, Kmem.storePtr]
    rw [Mem.readWord_writeWord_of_disjoint (by omega)]
  prev_setPrev s a v _ hv := by
    simp only [Kmem.loadPtr, Kmem.storePtr, Mem.readWord_writeWord, BitVec.toNat_ofNat]
    exact Nat.mod_eq_of_lt hv.fits
  prev_setPrev_ne s a b v ha hb hne := by
    have hap := ha.apart hb hne.symm
    simp only [Kmem.loadPtr, Kmem.storePtr]
    rw [Mem.readWord_writeWord_of_disjoint (by omega)]
  next_setPrev s a b v ha hb := by
    have hap := ha.apart hb
    simp only [Kmem.loadPtr, Kmem.storePtr]
    rw [Mem.readWord_writeWord_of_disjoint (by omega)]

/-! ## Page accessors -/

section
variable (L : Layout) (s : Kmem) (page : Nat)

def pageSetBlock : Kmem := s.modPage (L.pageIdx page) (·.setType .block)
def pageSetValid : Kmem := s.modPage (L.pageIdx page) (·.setValid 1)
def pageSetDirty : Kmem := s.modPage (L.pageIdx page) (·.setDirty 1)
def pageClrDirty : Kmem := s.modPage (L.pageIdx page) (·.setDirty 0)

def pageIsDirty : Bool := (s.page (L.pageIdx page)).dirty = 1

/-- `page_get_refcount`. -/
def pageGetRefcount : Nat := (s.page (L.pageIdx page)).refcount.toNat

/-- `page_inc_refcount`: the new count, or a panic at 255. -/
def pageIncRefcount : Option (Nat × Kmem) :=
  let refcount := pageGetRefcount L s page
  if refcount = 255 then none
  else some (refcount + 1,
    s.modPage (L.pageIdx page) (·.setRefcount (BitVec.ofNat 8 (refcount + 1))))

/-- `page_dec_refcount`: the new count, or a panic at 0. -/
def pageDecRefcount : Option (Nat × Kmem) :=
  let refcount := pageGetRefcount L s page
  if refcount = 0 then none
  else some (refcount - 1,
    s.modPage (L.pageIdx page) (·.setRefcount (BitVec.ofNat 8 (refcount - 1))))

/-- `page_set_lba`. -/
def pageSetLba (bdev lba : Nat) : Kmem :=
  (s.modPage (L.pageIdx page) (·.setBdev (BitVec.ofNat 4 bdev))).modPage (L.pageIdx page)
    (·.setLba (BitVec.ofNat 32 lba))

/-- `page_get_lba`. -/
def pageGetLba : Nat × Nat :=
  ((s.page (L.pageIdx page)).bdev.toNat, (s.page (L.pageIdx page)).lba.toNat)

end

/-! ## Allocation -/

section
variable (L : Layout)

/-- `kmemkernel_init`. -/
def kmemkernelInit (s : Kmem) : Kmem :=
  let s : Kmem :=
    { mem := s.mem.fill L.kbssOrigin (L.kmb - L.kbssOrigin) 0,
      page := fun _ => 0, objects := fun _ => 0 }
  let s := (List.range L.maxLineSlab).foldl (fun s i => listInit (cells L) s (L.slab i)) s
  (List.range L.nbPages).foldl (fun s i =>
    let p := L.kmb + i * pageSize
    (listAddlast (cells L) s (L.slab 0) p).modPage (L.pageIdx p) fun _ => 0) s

/-- The loop that cuts a page into objects: `p` runs over the page by steps of
`size`. -/
def cutLoop (root size page : Nat) : Nat → Nat → Kmem → Option Kmem
  | 0, _, _ => none
  | n + 1, p, s =>
    if p + size ≤ page + pageSize then
      cutLoop root size page n (p + size) (listAddlast (cells L) s root p)
    else some s

/-- The middle of `kmalloc`: a fresh page, its counter reset, cut into the objects
of `Slab[lines]`. -/
def refill (self : Nat → Kmem → Option (Nat × Kmem)) (lines size : Nat) (s : Kmem) :
    Option Kmem := do
  let (page, s) ← self pageSize s
  let s := s.modPage (L.pageIdx page) (·.setNbused 0)
  cutLoop L (L.slab lines) size page (pageSize + 1) page s

/-- The end of `kmalloc`: the first object of `Slab[idx]`, counted in its page and
cleared.  A `NULL` of `list_getfirst` is used as the address 0. -/
def takeFirst (idx size : Nat) (s : Kmem) : Nat × Kmem :=
  let (first, s) := listGetfirst (cells L) s (L.slab idx)
  let res := first.getD 0
  let s := s.modObjects idx (· + 1)
  let s := s.modPage (L.pageIdx res) (·.setLines (BitVec.ofNat 8 idx))
  let s := s.modPage (L.pageIdx res) fun d => d.setNbused (d.nbused + 1)
  let s := s.modPage (L.pageIdx res) (·.setType .slab)
  (res, { s with mem := s.mem.fill res size 0 })

/-- The body of `kmalloc`, over the function it calls for a page. -/
def kmallocStep (self : Nat → Kmem → Option (Nat × Kmem)) (size : Nat) (s : Kmem) :
    Option (Nat × Kmem) :=
  if pageSize < size then none
  else if size = pageSize ∧ listIsempty (cells L) s (L.slab 0) then none
  else
    let lines := L.nbline size
    let size := lines * L.cacheLineSize
    if size ≠ pageSize ∧ listIsempty (cells L) s (L.slab lines) then do
      let s ← refill L self lines size s
      some (takeFirst L (lines % L.maxLineSlab) size s)
    else some (takeFirst L (lines % L.maxLineSlab) size s)

/-- `kmalloc`.  The recursive call is for a whole page and makes no other. -/
def kmalloc : Nat → Kmem → Option (Nat × Kmem) := kmallocStep L (kmallocStep L fun _ _ => none)

/-- `kcalloc`. -/
def kcalloc (n size : Nat) (s : Kmem) : Option (Nat × Kmem) := kmalloc L (n * size % 2 ^ 32) s

/-- The end of `kfree`: the page of `obj`, which has no object left, goes from
`Slab[lines]` to the free pages. -/
def reclaim (lines pageidx obj : Nat) (s : Kmem) : Option Kmem := do
  let page := obj / pageSize * pageSize
  let s ← listForeach (cells L) (L.nbPages * 256 + 1)
    (fun s item => if L.pageIdx item = pageidx then listUnlink (cells L) s item else s)
    s (L.slab lines)
  let s := s.modPage pageidx fun _ => 0
  let s := s.modPage pageidx (·.setLines 0)
  let s := listAddfirst (cells L) s (L.slab 0) page
  some (s.modObjects 0 (· - 1))

/-- `kfree`. -/
def kfree (obj : Nat) (s : Kmem) : Option Kmem :=
  if obj < L.kmb ∨ L.kme ≤ obj then none
  else
    let pageidx := L.pageIdx obj
    let lines := (s.page pageidx).lines.toNat
    if (s.page pageidx).type = PageType.free.toBits then none
    else
      let s := listAddfirst (cells L) s (L.slab lines) obj
      let s := s.modObjects lines (· - 1)
      if lines = 0 then some (s.modPage pageidx fun _ => 0)
      else
        let s := s.modPage pageidx fun d => d.setNbused (d.nbused - 1)
        if (s.page pageidx).nbused = 0 then reclaim L lines pageidx obj s
        else some s

end

end Ko6.Kernel
