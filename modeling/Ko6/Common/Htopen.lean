import Ko6.Common.Cstd
import Ko6.Lib.OpenTable

set_option autoImplicit false

/-!
# Common: the hash table of `common/htopen.c`

A table with open addressing and double hashing.  The keys are strings, which the
table copies, or pointers, which it stores as they are.  The field `key` of a slot
is `NULL` when the slot has never been used, and `KEYFREED` when its key has been
taken out.  An `unsigned long` has 32 bits.
-/

namespace Ko6.Common

open Ko6.Lib

/-! ## Keys -/

/-- `KEYFREED`. -/
def keyFreedAddr : BitVec 32 := 0xF0000001

/-- A pointer that is neither `NULL` nor `KEYFREED`. -/
structure Ptr where
  addr : BitVec 32
  ne_null : addr ≠ 0
  ne_freed : addr ≠ keyFreedAddr
  deriving DecidableEq

/-- A key, as an argument and as the field `key` of a slot. -/
inductive Key where
  | null
  | keyFreed
  | str (s : CStr)
  | ptr (p : Ptr)
  deriving DecidableEq

/-- The field `type`: 0 for strings, 1 for pointers. -/
inductive KeyType where
  | string
  | pointer
  deriving DecidableEq

/-- The pointer as a number, in a table of pointers. -/
def Key.addr : Key → BitVec 32
  | .keyFreed => keyFreedAddr
  | .ptr p => p.addr
  | .null | .str _ => 0

/-- The characters, in a table of strings. -/
def Key.chars : Key → List (BitVec 8)
  | .str s => s.chars
  | .null | .keyFreed | .ptr _ => []

/-- The keys the callers of a table use. -/
def Key.Fits : KeyType → Key → Prop
  | .string, .str _ | .pointer, .ptr _ => True
  | _, _ => False

/-! ## The table -/

/-- `struct hto_slot_s`. -/
structure HtoSlot where
  key : Key
  val : BitVec 32

/-- `struct hto_s`. -/
structure Hto where
  type : KeyType
  size : Nat
  empty : BitVec 32
  freed : BitVec 32
  bucket : Nat → HtoSlot

namespace Hto

/-- `bucket[h].key = key`. -/
def setKey (ht : Hto) (h : Nat) (key : Key) : Hto :=
  { ht with bucket := Function.update ht.bucket h { ht.bucket h with key := key } }

/-- `bucket[h].val = val`. -/
def setVal (ht : Hto) (h : Nat) (val : BitVec 32) : Hto :=
  { ht with bucket := Function.update ht.bucket h { ht.bucket h with val := val } }

end Hto

/-- The inner loop of `largest_prime`: the last remainder. -/
def divisorLoop (n : Nat) : Nat → Nat → Nat → Nat
  | 0, _, p => p
  | fuel + 1, i, p =>
    if i * i % 2 ^ 32 ≤ n ∧ p ≠ 0 then divisorLoop n fuel (i + 1) (n % i) else p

/-- `largest_prime`, with -1 as an `unsigned`. -/
def largestPrime : Nat → Nat
  | 0 => 2 ^ 32 - 1
  | n + 1 =>
    if n + 1 > 1 then
      if divisorLoop (n + 1) (n + 1) 2 1 ≠ 0 then n + 1 else largestPrime n
    else 2 ^ 32 - 1

/-- `hto_create`, with an allocation that succeeds. -/
def htoCreate (nb type : Nat) : Option Hto :=
  let nb := largestPrime nb
  let s := (12 + nb * 8) % 2 ^ 32
  if s > 4096 then none
  else
    some
      { type := if type % 2 = 0 then .string else .pointer
        size := nb % 2 ^ 30
        empty := BitVec.ofNat 32 nb
        freed := 0
        bucket := fun _ => { key := .null, val := 0 } }

/-- A `char` as an `int`: it is signed or not, as the compiler has it. -/
def charInt (signedChar : Bool) (c : BitVec 8) : BitVec 32 :=
  if signedChar then c.signExtend 32 else c.setWidth 32

/-- The two hash values of a string: DJB2 and SDBM. -/
def hashChars (signedChar : Bool) (chars : List (BitVec 8)) : BitVec 32 × BitVec 32 :=
  chars.foldl (fun (h1, h2) c =>
    let c := charInt signedChar c
    ((h1 <<< 5) + h1 + c, c + (h2 <<< 6) + (h2 <<< 16) - h2)) (5381, 0)

section
variable (signedChar : Bool)

/-- `hash`. -/
def hash (ht : Hto) (key : Key) (nbtry : Nat) : Nat :=
  let (h1, h2) :=
    match ht.type with
    | .string => hashChars signedChar key.chars
    | .pointer => (key.addr * 2654435761, (key.addr <<< 6) + (key.addr <<< 16))
  let h2 := h2 % BitVec.ofNat 32 (ht.size - 1) + 1
  (h1 + BitVec.ofNat 32 nbtry * h2).toNat % ht.size

/-- `keycmp`. -/
def keycmp (ht : Hto) (k1 k2 : Key) : BitVec 32 :=
  match ht.type with
  | .pointer => k1.addr - k2.addr
  | .string => BitVec.ofInt 32 (strcmp k1.chars k2.chars)

/-- `keydup`: the copy of a string is the same string. -/
def keydup (_ht : Hto) (k : Key) : Key := k

/-- `FOREACH_PROBE`, with the variables of the loop as `σ`: the body goes on with
new values of them or returns. -/
def foreachProbe {σ ρ : Type} (probe : Nat → Nat) (body : Nat → Nat → σ → σ ⊕ ρ) (done : σ → ρ) :
    Nat → Nat → σ → ρ
  | 0, _, s => done s
  | n + 1, nbtry, s =>
    match body nbtry (probe nbtry) s with
    | .inl s => foreachProbe probe body done n (nbtry + 1) s
    | .inr r => r

/-- The body of the loop of `hto_get`. -/
def getBody (ht : Hto) (key : Key) (_nbtry h : Nat) (slot : Option Nat) :
    Option Nat ⊕ BitVec 32 × Hto :=
  let currentKey := (ht.bucket h).key
  if currentKey = .keyFreed then .inl (if slot.isNone then some h else slot)
  else if currentKey = .null then .inr (0, ht)
  else if keycmp ht key currentKey = 0 then
    let val := (ht.bucket h).val
    match slot with
    | some slot => .inr (val, ((ht.setKey h .keyFreed).setKey slot currentKey).setVal slot val)
    | none => .inr (val, ht)
  else .inl slot

/-- `hto_get`. -/
def htoGet (ht : Hto) (key : Key) : BitVec 32 × Hto :=
  foreachProbe (hash signedChar ht key) (getBody ht key) (fun _ => (0, ht)) ht.size 0 none

/-- `ENOSPC`. -/
def enospc : Int := 13

/-- The body of the loop of `hto_set`; the variables are `slot` and
`try_forthisslot`. -/
def setBody (ht : Hto) (key : Key) (val : BitVec 32) (nbtry h : Nat) :
    Option Nat × Nat → (Option Nat × Nat) ⊕ Int × Hto
  | (slot, tryForthisslot) =>
    let currentKey := (ht.bucket h).key
    if currentKey = .keyFreed then
      .inl (if slot.isNone then (some h, nbtry) else (slot, tryForthisslot))
    else if currentKey = .null then
      match slot with
      | none =>
        let ht := { ht with empty := ht.empty - 1 }
        .inr (nbtry, (ht.setKey h (keydup ht key)).setVal h val)
      | some slot =>
        let ht := { ht with freed := ht.freed - 1 }
        .inr (tryForthisslot, (ht.setKey slot (keydup ht key)).setVal slot val)
    else if keycmp ht key currentKey = 0 then
      match slot with
      | some slot => .inr (nbtry, ((ht.setKey h .keyFreed).setKey slot currentKey).setVal slot val)
      | none => .inr (nbtry, ht.setVal h val)
    else .inl (slot, tryForthisslot)

/-- The end of `hto_set`, when the loop has not returned. -/
def setDone (ht : Hto) (key : Key) (val : BitVec 32) : Option Nat × Nat → Int × Hto
  | (some slot, tryForthisslot) =>
    let ht := { ht with freed := ht.freed - 1 }
    (tryForthisslot, (ht.setKey slot (keydup ht key)).setVal slot val)
  | (none, _) => (-enospc, ht)

/-- `hto_set`. -/
def htoSet (ht : Hto) (key : Key) (val : BitVec 32) : Int × Hto :=
  if key = .keyFreed then (-2, ht)
  else
    foreachProbe (hash signedChar ht key) (setBody ht key val) (setDone ht key val) ht.size 0
      (none, 0)

/-- The body of the loop of `hto_del`.  `free` tells for which keys `FREE` returns: it
panics, or exits, for what the allocator has not given. -/
def delBody (free : Key → Bool) (ht : Hto) (key : Key) (_nbtry h : Nat) (_ : Unit) :
    Unit ⊕ Option (BitVec 32 × Hto) :=
  let currentKey := (ht.bucket h).key
  if currentKey = .keyFreed then .inl ()
  else if currentKey = .null then .inr (some (0, ht))
  else if keycmp ht key currentKey = 0 then
    let oldVal := (ht.bucket h).val
    if free currentKey then
      let ht := (ht.setKey h .keyFreed).setVal h 0
      .inr (some (oldVal, { ht with freed := ht.freed + 1 }))
    else .inr none
  else .inl ()

/-- `hto_del`: `none` when `FREE` does not return. -/
def htoDel (free : Key → Bool) (ht : Hto) (key : Key) : Option (BitVec 32 × Hto) :=
  foreachProbe (hash signedChar ht key) (delBody free ht key) (fun _ => some (0, ht)) ht.size 0 ()

end

/-- The arguments of the calls of the callback function by `hto_foreach`, in order. -/
def htoForeach (ht : Hto) : List (Nat × Key × BitVec 32) :=
  (List.range ht.size).filterMap fun h =>
    let key := (ht.bucket h).key
    if key ≠ .null ∧ key ≠ .keyFreed then some (h, key, (ht.bucket h).val) else none

end Ko6.Common
