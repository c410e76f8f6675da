import Mathlib

set_option autoImplicit false

/-!
# Common: the radix tree of `common/radix.c`

`radix.c` stores a table `void *radix[2^32]` as a tree of 256-slot nodes, four
levels deep.  Small indices take a shortcut: `root_l1`, `root_l2` and `root_l3`
point at the nodes that hold the indices whose upper slices are zero, and both
`radix_get` and `radix_set` start from the root of the smallest level that can
hold the index.

The nodes live in a heap of untyped slots.  A slot of an inner node holds the
address of a node of the next level, a slot of a leaf node holds a stored
value; nothing in memory tells the two apart, so neither does the model.
-/

namespace Ko6.Common.Radix

/-- A `void *`: the address of a node, or a stored value.  `NULL` is 0. -/
abbrev Ptr := Nat

/-- `RADIX_SLOTS`. -/
abbrev radixSlots : Nat := 256

/-- A node has a slot 0. -/
scoped instance radixSlots_neZero : NeZero radixSlots := ⟨by decide⟩

/-- The tree has a level 0. -/
scoped instance levels_neZero : NeZero 4 := ⟨by decide⟩

/-- `radix_node_t`: the `slots` array of one node. -/
abbrev Node := Fin radixSlots → Ptr

/-- The behaviour of `calloc`: the address returned by the `n`-th call when
`live` is the set of allocated blocks, 0 on failure.  An address that is handed
out is not the address of a live block. -/
structure Calloc where
  pick : Nat → Finset Ptr → Ptr
  pick_fresh : ∀ n live, pick n live ≠ 0 → pick n live ∉ live

/-- No call of `calloc` fails. -/
def Calloc.Succeeds (C : Calloc) : Prop := ∀ n live, C.pick n live ≠ 0

/-- The `calloc` that hands out the address after the largest live one. -/
def Calloc.bump : Calloc where
  pick _ live := live.sup id + 1
  pick_fresh := by
    intro _ live _ hmem
    have hle : id (live.sup id + 1) ≤ live.sup id := Finset.le_sup hmem
    exact absurd hle (Nat.not_succ_le_self _)

theorem Calloc.bump_succeeds : Calloc.bump.Succeeds := by
  intro n live
  simp [Calloc.bump]

/-- The four roots of `struct radix_s` together with the heap they point into. -/
structure State where
  rootL0 : Ptr
  rootL1 : Ptr
  rootL2 : Ptr
  rootL3 : Ptr
  /-- contents of the nodes, by address -/
  node : Ptr → Node
  /-- addresses of the allocated blocks -/
  live : Finset Ptr
  /-- number of `calloc` calls so far -/
  calls : Nat

/-! ## Slices of an index -/

theorem and_ff_lt (x : UInt32) : (x &&& 0xFF).toNat < radixSlots := by
  rw [UInt32.toNat_and]
  exact Nat.lt_of_le_of_lt Nat.and_le_right (by decide)

/-- `L0`: the most significant byte. -/
def l0 (i : UInt32) : Fin radixSlots := ⟨((i >>> 24) &&& 0xFF).toNat, and_ff_lt _⟩

/-- `L1`. -/
def l1 (i : UInt32) : Fin radixSlots := ⟨((i >>> 16) &&& 0xFF).toNat, and_ff_lt _⟩

/-- `L2`. -/
def l2 (i : UInt32) : Fin radixSlots := ⟨((i >>> 8) &&& 0xFF).toNat, and_ff_lt _⟩

/-- `L3`: the least significant byte. -/
def l3 (i : UInt32) : Fin radixSlots := ⟨(i &&& 0xFF).toNat, and_ff_lt _⟩

/-! ## Heap accesses -/

/-- `n->slots[k]`. -/
def State.slot (s : State) (n : Ptr) (k : Fin radixSlots) : Ptr := s.node n k

/-- `n->slots[k] = v`. -/
def State.setSlot (s : State) (n : Ptr) (k : Fin radixSlots) (v : Ptr) : State :=
  { s with node := Function.update s.node n (Function.update (s.node n) k v) }

/-- `new_node`: a zeroed block, or `NULL` when `calloc` fails. -/
def newNode (C : Calloc) (s : State) : Ptr × State :=
  let a := C.pick s.calls s.live
  if a = 0 then (0, { s with calls := s.calls + 1 })
  else (a, { s with node := Function.update s.node a (fun _ => 0)
                    live := insert a s.live
                    calls := s.calls + 1 })

/-- `radix_create`: an empty table.  The block of the `radix_t` itself is not
part of the node heap. -/
def radixCreate : State where
  rootL0 := 0
  rootL1 := 0
  rootL2 := 0
  rootL3 := 0
  node := fun _ _ => 0
  live := ∅
  calls := 0

/-! ## `radix_get` -/

/-- `radix_get`. -/
def radixGet (s : State) (i : UInt32) : Ptr :=
  if i < 0x100 then
    let n3 := s.rootL3
    if n3 = 0 then 0 else s.slot n3 (l3 i)
  else if i < 0x10000 then
    let n2 := s.rootL2
    if n2 = 0 then 0 else
    let n3 := s.slot n2 (l2 i)
    if n3 = 0 then 0 else s.slot n3 (l3 i)
  else if i < 0x1000000 then
    let n1 := s.rootL1
    if n1 = 0 then 0 else
    let n2 := s.slot n1 (l1 i)
    if n2 = 0 then 0 else
    let n3 := s.slot n2 (l2 i)
    if n3 = 0 then 0 else s.slot n3 (l3 i)
  else
    let n0 := s.rootL0
    if n0 = 0 then 0 else
    let n1 := s.slot n0 (l0 i)
    if n1 = 0 then 0 else
    let n2 := s.slot n1 (l1 i)
    if n2 = 0 then 0 else
    let n3 := s.slot n2 (l2 i)
    if n3 = 0 then 0 else s.slot n3 (l3 i)

/-! ## `radix_set`

Every function below returns a node address and the new state, with address 0
for a failed allocation, exactly where the C code tests its result for `NULL`. -/

/-- `l3 = rx->root_l3`, allocated on first use. -/
def rootL3Node (C : Calloc) (s : State) : Ptr × State :=
  if s.rootL3 ≠ 0 then (s.rootL3, s) else
  let (n3, s) := newNode C s
  if n3 = 0 then (0, s) else (n3, { s with rootL3 := n3 })

/-- `l2 = rx->root_l2`, allocated on first use with `root_l3` in slot 0. -/
def rootL2Node (C : Calloc) (s : State) : Ptr × State :=
  if s.rootL2 ≠ 0 then (s.rootL2, s) else
  let (n2, s) := newNode C s
  if n2 = 0 then (0, s) else
  let s := s.setSlot n2 0 s.rootL3
  (n2, { s with rootL2 := n2 })

/-- `if (!root_l2 && root_l3)`: a new `root_l2` above `root_l3`.  The flag is
false when the allocation failed; `root_l2` then holds the `NULL` it got. -/
def raiseL2 (C : Calloc) (s : State) : Bool × State :=
  if s.rootL2 = 0 ∧ s.rootL3 ≠ 0 then
    let (n2, s) := newNode C s
    let s := { s with rootL2 := n2 }
    if n2 = 0 then (false, s) else (true, s.setSlot n2 0 s.rootL3)
  else (true, s)

/-- `if (!root_l1 && root_l2)`: a new `root_l1` above `root_l2`. -/
def raiseL1 (C : Calloc) (s : State) : Bool × State :=
  if s.rootL1 = 0 ∧ s.rootL2 ≠ 0 then
    let (n1, s) := newNode C s
    let s := { s with rootL1 := n1 }
    if n1 = 0 then (false, s) else (true, s.setSlot n1 0 s.rootL2)
  else (true, s)

/-- `l1 = rx->root_l1`, allocated on first use above `root_l2`. -/
def rootL1Node (C : Calloc) (s : State) : Ptr × State :=
  if s.rootL1 ≠ 0 then (s.rootL1, s) else
  let (n1, s) := newNode C s
  if n1 = 0 then (0, s) else
  let (ok, s) := raiseL2 C s
  if ok = false then (0, s) else
  let s := s.setSlot n1 0 s.rootL2
  (n1, { s with rootL1 := n1 })

/-- `l0 = rx->root_l0`, allocated on first use above `root_l1`. -/
def rootL0Node (C : Calloc) (s : State) : Ptr × State :=
  if s.rootL0 ≠ 0 then (s.rootL0, s) else
  let (n0, s) := newNode C s
  if n0 = 0 then (0, s) else
  let (ok, s) := raiseL2 C s
  if ok = false then (0, s) else
  let (ok, s) := raiseL1 C s
  if ok = false then (0, s) else
  let s := s.setSlot n0 0 s.rootL1
  (n0, { s with rootL0 := n0 })

/-- One level down: `child = parent->slots[k]`, allocated on first use.  The
code also stores a new child of slot 0 into the shortcut root of its level,
whatever the upper slices of the index are. -/
def child (setRoot : State → Ptr → State) (C : Calloc) (s : State) (parent : Ptr)
    (k : Fin radixSlots) : Ptr × State :=
  let n := s.slot parent k
  if n ≠ 0 then (n, s) else
  let (n, s) := newNode C s
  if n = 0 then (0, s) else
  let s := s.setSlot parent k n
  (n, if k = 0 then setRoot s n else s)

/-- `l1 = l0->slots[L0(index)]`. -/
def childL1 : Calloc → State → Ptr → Fin radixSlots → Ptr × State :=
  child fun s n => { s with rootL1 := n }

/-- `l2 = l1->slots[L1(index)]`. -/
def childL2 : Calloc → State → Ptr → Fin radixSlots → Ptr × State :=
  child fun s n => { s with rootL2 := n }

/-- `l3 = l2->slots[L2(index)]`. -/
def childL3 : Calloc → State → Ptr → Fin radixSlots → Ptr × State :=
  child fun s n => { s with rootL3 := n }

/-- `radix_set`: the return code, 0 or -1, and the new state. -/
def radixSet (C : Calloc) (s : State) (i : UInt32) (val : Ptr) : Int × State :=
  if i < 0x100 then
    let (n3, s) := rootL3Node C s
    if n3 = 0 then (-1, s) else (0, s.setSlot n3 (l3 i) val)
  else if i < 0x10000 then
    let (n2, s) := rootL2Node C s
    if n2 = 0 then (-1, s) else
    let (n3, s) := childL3 C s n2 (l2 i)
    if n3 = 0 then (-1, s) else (0, s.setSlot n3 (l3 i) val)
  else if i < 0x1000000 then
    let (n1, s) := rootL1Node C s
    if n1 = 0 then (-1, s) else
    let (n2, s) := childL2 C s n1 (l1 i)
    if n2 = 0 then (-1, s) else
    let (n3, s) := childL3 C s n2 (l2 i)
    if n3 = 0 then (-1, s) else (0, s.setSlot n3 (l3 i) val)
  else
    let (n0, s) := rootL0Node C s
    if n0 = 0 then (-1, s) else
    let (n1, s) := childL1 C s n0 (l0 i)
    if n1 = 0 then (-1, s) else
    let (n2, s) := childL2 C s n1 (l1 i)
    if n2 = 0 then (-1, s) else
    let (n3, s) := childL3 C s n2 (l2 i)
    if n3 = 0 then (-1, s) else (0, s.setSlot n3 (l3 i) val)

/-- The state after a sequence of `radix_set(rx, index, val)` calls. -/
def runSets (C : Calloc) (s : State) (ops : List (UInt32 × Ptr)) : State :=
  ops.foldl (fun s op => (radixSet C s op.1 op.2).2) s

end Ko6.Common.Radix
