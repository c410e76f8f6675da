import Ko6.Common.HtopenMap
import Ko6.Lib.Ledger
import Ko6.Lib.Runs

set_option autoImplicit false

/-!
# Common: who owns the keys of the hash table

The table of `common/htopen.c` again, with the addresses of the keys in its slots.  A
table of strings stores copies that `keydup` takes from `STRDUP`, and they are its own;
a table of pointers stores the pointers of its callers.  The log of the heap tells
which copies have been made and which keys `FREE` has been applied to.

The blocks of the tables themselves are allocated and freed too; they are no keys and
are left out of the log.
-/

namespace Ko6.Common.Own

open Ko6.Lib Ko6.Lib.Ledger

abbrev Addr := BitVec 32

/-! ## Tables of addresses -/

/-- The strings that the memory holds, by address, and the log of the keys copied and
freed. -/
structure Heap where
  text : Addr → CStr
  log : List (Event Addr)

/-- `STRDUP`: where its copy is, or `NULL`.  The copy is not where one is still in use,
and no string is at `KEYFREED`. -/
structure Strdup where
  pick : Heap → Addr
  fresh : ∀ heap, pick heap ≠ 0 → ¬ Held heap.log (pick heap)
  ne_keyFreed : ∀ heap, pick heap ≠ keyFreedAddr

/-- `struct hto_slot_s`. -/
structure HtoSlot where
  key : Addr
  val : BitVec 32

/-- `struct hto_s`. -/
structure Hto where
  type : KeyType
  size : Nat
  empty : BitVec 32
  freed : BitVec 32
  bucket : Nat → HtoSlot

namespace Hto

/-- `bucket[h].key = key`. -/
def setKey (ht : Hto) (h : Nat) (key : Addr) : Hto :=
  { ht with bucket := Function.update ht.bucket h { ht.bucket h with key := key } }

/-- `bucket[h].val = val`. -/
def setVal (ht : Hto) (h : Nat) (val : BitVec 32) : Hto :=
  { ht with bucket := Function.update ht.bucket h { ht.bucket h with val := val } }

end Hto

/-- The table with other numbers of empty and freed slots. -/
def Hto.counts (ht : Hto) (empty freed : BitVec 32) : Hto :=
  { ht with empty := empty, freed := freed }

/-- What an address is as a key of a table. -/
def keyOf (text : Addr → CStr) (type : KeyType) (a : Addr) : Key :=
  if h0 : a = 0 then .null
  else if hf : a = keyFreedAddr then .keyFreed
  else
    match type with
    | .string => .str (text a)
    | .pointer => .ptr ⟨a, h0, hf⟩

/-- The table with its keys in place of their addresses. -/
def Hto.view (text : Addr → CStr) (ht : Hto) : Common.Hto :=
  { type := ht.type
    size := ht.size
    empty := ht.empty
    freed := ht.freed
    bucket := fun h => { key := keyOf text ht.type (ht.bucket h).key, val := (ht.bucket h).val } }

/-- The field `type` as a number. -/
def typeBit : KeyType → Nat
  | .string => 0
  | .pointer => 1

/-- `hto_create`; `malloc` tells whether `MALLOC` gives a block. -/
def htoCreate (nb type : Nat) (malloc : Bool) : Option Hto :=
  let nb := largestPrime nb
  let s := (12 + nb * 8) % 2 ^ 32
  if s > 4096 then none
  else if malloc then
    some
      { type := if type % 2 = 0 then .string else .pointer
        size := nb % 2 ^ 30
        empty := BitVec.ofNat 32 nb
        freed := 0
        bucket := fun _ => { key := 0, val := 0 } }
  else none

/-- `FREE` of a key. -/
def free (a : Addr) (heap : Heap) : Heap :=
  { heap with log := .free a :: heap.log }

/-- The body of the loop of `hto_destroy`.  What `freevalfn` does with the values is not
looked at. -/
def destroyBody (ht : Hto) (freekeyfn : Option (Addr → Heap → Heap)) (heap : Heap) (h : Nat) :
    Heap :=
  let key := (ht.bucket h).key
  if key ≠ 0 ∧ key ≠ keyFreedAddr then
    match freekeyfn with
    | some freekeyfn => freekeyfn (ht.bucket h).key heap
    | none => heap
  else heap

/-- `hto_destroy`. -/
def htoDestroy (ht : Hto) (freekeyfn : Option (Addr → Heap → Heap)) (heap : Heap) : Heap :=
  (List.range ht.size).foldl (destroyBody ht freekeyfn) heap

section
variable (signedChar : Bool)

/-- `hash`. -/
def hash (text : Addr → CStr) (ht : Hto) (key : Addr) (nbtry : Nat) : Nat :=
  Common.hash signedChar (ht.view text) (keyOf text ht.type key) nbtry

/-- `keycmp`. -/
def keycmp (text : Addr → CStr) (ht : Hto) (k1 k2 : Addr) : BitVec 32 :=
  Common.keycmp (ht.view text) (keyOf text ht.type k1) (keyOf text ht.type k2)

/-- `STRDUP`. -/
def strdup (dup : Strdup) (k : Addr) (heap : Heap) : Addr × Heap :=
  let copy := dup.pick heap
  if copy = 0 then (0, heap)
  else
    (copy, { text := Function.update heap.text copy (heap.text k), log := .alloc copy :: heap.log })

/-- `keydup`. -/
def keydup (dup : Strdup) (ht : Hto) (k : Addr) (heap : Heap) : Addr × Heap :=
  match ht.type with
  | .pointer => (k, heap)
  | .string => strdup dup k heap

/-- The body of the loop of `hto_get`. -/
def getBody (text : Addr → CStr) (ht : Hto) (key : Addr) (_nbtry h : Nat) (slot : Option Nat) :
    Option Nat ⊕ BitVec 32 × Hto :=
  let currentKey := (ht.bucket h).key
  if currentKey = keyFreedAddr then .inl (if slot.isNone then some h else slot)
  else if currentKey = 0 then .inr (0, ht)
  else if keycmp text ht key currentKey = 0 then
    let val := (ht.bucket h).val
    match slot with
    | some slot => .inr (val, ((ht.setKey h keyFreedAddr).setKey slot currentKey).setVal slot val)
    | none => .inr (val, ht)
  else .inl slot

/-- `hto_get`. -/
def htoGet (text : Addr → CStr) (ht : Hto) (key : Addr) : BitVec 32 × Hto :=
  foreachProbe (hash signedChar text ht key) (getBody text ht key) (fun _ => (0, ht)) ht.size 0 none

/-- The body of the loop of `hto_set`; the variables are `slot` and `try_forthisslot`. -/
def setBody (dup : Strdup) (ht : Hto) (key : Addr) (val : BitVec 32) (heap : Heap)
    (nbtry h : Nat) : Option Nat × Nat → (Option Nat × Nat) ⊕ Int × Hto × Heap
  | (slot, tryForthisslot) =>
    let currentKey := (ht.bucket h).key
    if currentKey = keyFreedAddr then
      .inl (if slot.isNone then (some h, nbtry) else (slot, tryForthisslot))
    else if currentKey = 0 then
      match slot with
      | none =>
        let ht := { ht with empty := ht.empty - 1 }
        let (copy, heap) := keydup dup ht key heap
        .inr (nbtry, (ht.setKey h copy).setVal h val, heap)
      | some slot =>
        let ht := { ht with freed := ht.freed - 1 }
        let (copy, heap) := keydup dup ht key heap
        .inr (tryForthisslot, (ht.setKey slot copy).setVal slot val, heap)
    else if keycmp heap.text ht key currentKey = 0 then
      match slot with
      | some slot =>
        .inr (nbtry, ((ht.setKey h keyFreedAddr).setKey slot currentKey).setVal slot val, heap)
      | none => .inr (nbtry, ht.setVal h val, heap)
    else .inl (slot, tryForthisslot)

/-- The end of `hto_set`, when the loop has not returned. -/
def setDone (dup : Strdup) (ht : Hto) (key : Addr) (val : BitVec 32) (heap : Heap) :
    Option Nat × Nat → Int × Hto × Heap
  | (some slot, tryForthisslot) =>
    let ht := { ht with freed := ht.freed - 1 }
    let (copy, heap) := keydup dup ht key heap
    (tryForthisslot, (ht.setKey slot copy).setVal slot val, heap)
  | (none, _) => (-enospc, ht, heap)

/-- `hto_set`. -/
def htoSet (dup : Strdup) (ht : Hto) (key : Addr) (val : BitVec 32) (heap : Heap) :
    Int × Hto × Heap :=
  if key = keyFreedAddr then (-2, ht, heap)
  else
    foreachProbe (hash signedChar heap.text ht key) (setBody dup ht key val heap)
      (setDone dup ht key val heap) ht.size 0 (none, 0)

/-- The body of the loop of `hto_del`. -/
def delBody (ht : Hto) (key : Addr) (heap : Heap) (_nbtry h : Nat) (_ : Unit) :
    Unit ⊕ BitVec 32 × Hto × Heap :=
  let currentKey := (ht.bucket h).key
  if currentKey = keyFreedAddr then .inl ()
  else if currentKey = 0 then .inr (0, ht, heap)
  else if keycmp heap.text ht key currentKey = 0 then
    let oldVal := (ht.bucket h).val
    let heap := free (ht.bucket h).key heap
    let ht := (ht.setKey h keyFreedAddr).setVal h 0
    .inr (oldVal, { ht with freed := ht.freed + 1 }, heap)
  else .inl ()

/-- `hto_del`. -/
def htoDel (ht : Hto) (key : Addr) (heap : Heap) : BitVec 32 × Hto × Heap :=
  foreachProbe (hash signedChar heap.text ht key) (delBody ht key heap) (fun _ => (0, ht, heap))
    ht.size 0 ()

/-- The body of the loop of `hto_rehash`. -/
def reinsert (dup : Strdup) (ht : Hto) : Hto × Heap → Nat → Hto × Heap
  | (newHt, heap), i =>
    let key := (ht.bucket i).key
    if key ≠ 0 ∧ key ≠ keyFreedAddr then
      let val := (ht.bucket i).val
      (htoSet signedChar dup newHt key val heap).2
    else (newHt, heap)

/-- The table that `hto_rehash` allocates. -/
def rehashTable (ht : Hto) (percent : BitVec 32) (malloc : Bool) : Option Hto :=
  let newSize := (BitVec.ofNat 32 ht.size * percent).toNat / 100
  if newSize < 2 then none
  else
    let newSize := largestPrime newSize
    htoCreate newSize (typeBit ht.type) malloc

/-- `hto_rehash`: what it returns, with `*pht` and the heap after it. -/
def htoRehash (dup : Strdup) (pht : Option Hto) (percent : BitVec 32) (malloc : Bool)
    (heap : Heap) : Option Hto × Option Hto × Heap :=
  match pht with
  | none => (none, none, heap)
  | some ht =>
    if percent = 0 then (none, some ht, heap)
    else
      match rehashTable ht percent malloc with
      | none => (none, some ht, heap)
      | some newHt =>
        let (newHt, heap) := (List.range ht.size).foldl (reinsert signedChar dup ht) (newHt, heap)
        (some newHt, some newHt, heap)

end

/-! ## The table of keys behind the addresses -/

/-- Two loops over the same positions whose bodies agree up to `f`. -/
theorem foreachProbe_map {σ ρ ρ' : Type} {probe : Nat → Nat} {body : Nat → Nat → σ → σ ⊕ ρ}
    {body' : Nat → Nat → σ → σ ⊕ ρ'} {done : σ → ρ} {done' : σ → ρ'} (f : ρ → ρ')
    (hbody : ∀ n h s, body' n h s = (body n h s).map id f) (hdone : ∀ s, done' s = f (done s))
    (fuel n : Nat) (s : σ) :
    foreachProbe probe body' done' fuel n s = f (foreachProbe probe body done fuel n s) := by
  induction fuel generalizing n s with
  | zero => exact hdone s
  | succ fuel ih =>
    unfold foreachProbe
    rw [hbody]
    cases body n (probe n) s with
    | inl s' => exact ih (n + 1) s'
    | inr r => rfl

section
variable {sc : Bool} {text : Addr → CStr} {dup : Strdup} {ht : Hto} {heap : Heap} {h : Nat}
  {a b key : Addr} {type : KeyType} {val : BitVec 32}

@[simp] theorem setKey_type : (ht.setKey h a).type = ht.type := rfl
@[simp] theorem setKey_size : (ht.setKey h a).size = ht.size := rfl
@[simp] theorem setVal_type : (ht.setVal h val).type = ht.type := rfl
@[simp] theorem setVal_size : (ht.setVal h val).size = ht.size := rfl

theorem keydup_counts (e f : BitVec 32) :
    keydup dup (ht.counts e f) key heap = keydup dup ht key heap := rfl

theorem keyOf_eq_null : keyOf text type a = .null ↔ a = 0 := by
  unfold keyOf
  split_ifs with h0 hf
  · exact iff_of_true rfl h0
  · exact iff_of_false (by simp) h0
  · cases type <;> exact iff_of_false (by simp) h0

theorem keyOf_eq_keyFreed : keyOf text type a = .keyFreed ↔ a = keyFreedAddr := by
  unfold keyOf
  split_ifs with h0 hf
  · rw [h0]
    exact iff_of_false (by simp) (by decide)
  · exact iff_of_true rfl hf
  · cases type <;> exact iff_of_false (by simp) hf

@[simp] theorem view_key : ((ht.view text).bucket h).key = keyOf text ht.type (ht.bucket h).key :=
  rfl

@[simp] theorem view_val : ((ht.view text).bucket h).val = (ht.bucket h).val := rfl

theorem view_setKey :
    (ht.setKey h a).view text = (ht.view text).setKey h (keyOf text ht.type a) := by
  unfold Hto.view Hto.setKey Common.Hto.setKey
  congr 1
  funext j
  by_cases hj : j = h <;> simp [hj]

theorem view_setVal : (ht.setVal h val).view text = (ht.view text).setVal h val := by
  unfold Hto.view Hto.setVal Common.Hto.setVal
  congr 1
  funext j
  by_cases hj : j = h <;> simp [hj]

theorem keyOf_keyFreed : keyOf text type keyFreedAddr = .keyFreed := keyOf_eq_keyFreed.mpr rfl

theorem getBody_view (n : Nat) (slot : Option Nat) :
    Common.getBody (ht.view text) (keyOf text ht.type key) n h slot =
      (getBody text ht key n h slot).map id fun r : BitVec 32 × Hto => (r.1, r.2.view text) := by
  unfold Common.getBody getBody
  simp only [view_key, view_val, keyOf_eq_keyFreed, keyOf_eq_null]
  by_cases hf : (ht.bucket h).key = keyFreedAddr
  · simp only [hf, if_true]
    rfl
  by_cases h0 : (ht.bucket h).key = 0
  · simp only [h0, if_true, if_neg (show ¬ (0 : Addr) = keyFreedAddr by decide)]
    rfl
  by_cases he : keycmp text ht key (ht.bucket h).key = 0
  · have he' := he
    unfold keycmp at he'
    simp only [hf, h0, he, he', if_true, if_false]
    cases slot with
    | none => rfl
    | some g =>
      simp only [Sum.map_inr, view_setVal, view_setKey, keyOf_keyFreed, setKey_type]
  · have he' := he
    unfold keycmp at he'
    simp only [hf, h0, he, he', if_false]
    rfl

/-- `hto_get` on addresses is `hto_get` on keys. -/
theorem htoGet_view : Common.htoGet sc (ht.view text) (keyOf text ht.type key) =
    ((htoGet sc text ht key).1, (htoGet sc text ht key).2.view text) := by
  have hbody : ∀ n h slot, Common.getBody (ht.view text) (keyOf text ht.type key) n h slot =
      (getBody text ht key n h slot).map id fun r : BitVec 32 × Hto => (r.1, r.2.view text) :=
    fun n h slot => getBody_view n slot
  have hdone : ∀ _ : Option Nat, ((0, ht.view text) : BitVec 32 × Common.Hto) =
      (fun r : BitVec 32 × Hto => (r.1, r.2.view text)) (0, ht) := fun _ => rfl
  unfold Common.htoGet htoGet
  exact foreachProbe_map _ hbody hdone ht.size 0 none

/-- What `keydup` can copy: a string, into a place that no slot of the table holds. -/
def Copies (dup : Strdup) (ht : Hto) (key : Addr) (heap : Heap) : Prop :=
  ht.type = .string → key ≠ 0 ∧ dup.pick heap ≠ 0 ∧ ∀ h, (ht.bucket h).key ≠ dup.pick heap

theorem view_update (s : CStr) (hfree : ∀ h, (ht.bucket h).key ≠ a) :
    ht.view (Function.update text a s) = ht.view text := by
  have hkey : ∀ h, keyOf (Function.update text a s) ht.type (ht.bucket h).key =
      keyOf text ht.type (ht.bucket h).key := by
    intro h
    unfold keyOf
    rw [Function.update_of_ne (hfree h)]
  unfold Hto.view
  simp only [hkey]

theorem insert_view {g : Nat} (e f : BitVec 32) (hkey : key ≠ keyFreedAddr)
    (hc : Copies dup ht key heap) :
    (((ht.counts e f).setKey g (keydup dup (ht.counts e f) key heap).1).setVal g val).view
        (keydup dup (ht.counts e f) key heap).2.text =
      (((ht.counts e f).view heap.text).setKey g (keyOf heap.text ht.type key)).setVal g val := by
  rw [view_setVal, view_setKey, keydup_counts]
  unfold keydup
  cases htype : ht.type with
  | pointer =>
    have hcounts : (ht.counts e f).type = .pointer := htype
    rw [hcounts]
  | string =>
    obtain ⟨hkey0, hpick, hfree⟩ := hc htype
    have hcounts : (ht.counts e f).type = .string := htype
    simp only [strdup, if_neg hpick, hcounts]
    rw [view_update _ (by exact hfree)]
    unfold keyOf
    rw [dif_neg hpick, dif_neg (dup.ne_keyFreed heap), dif_neg hkey0, dif_neg hkey]
    simp only [Function.update_self]

theorem setBody_view (n : Nat) (s : Option Nat × Nat) (hkey : key ≠ keyFreedAddr)
    (hc : Copies dup ht key heap) :
    Common.setBody (ht.view heap.text) (keyOf heap.text ht.type key) val n h s =
      (setBody dup ht key val heap n h s).map id fun r : Int × Hto × Heap =>
        (r.1, r.2.1.view r.2.2.text) := by
  obtain ⟨slot, tryForthisslot⟩ := s
  unfold Common.setBody setBody
  simp only [view_key, keyOf_eq_keyFreed, keyOf_eq_null]
  by_cases hf : (ht.bucket h).key = keyFreedAddr
  · simp only [hf, if_true]
    rfl
  by_cases h0 : (ht.bucket h).key = 0
  · simp only [h0, if_true, if_neg (show ¬ (0 : Addr) = keyFreedAddr by decide)]
    cases slot with
    | none => exact congrArg Sum.inr (Prod.ext rfl (insert_view _ _ hkey hc).symm)
    | some g => exact congrArg Sum.inr (Prod.ext rfl (insert_view _ _ hkey hc).symm)
  by_cases he : keycmp heap.text ht key (ht.bucket h).key = 0
  · have he' := he
    unfold keycmp at he'
    simp only [hf, h0, he, he', if_true, if_false]
    cases slot with
    | none => simp only [Sum.map_inr, view_setVal]
    | some g => simp only [Sum.map_inr, view_setVal, view_setKey, keyOf_keyFreed, setKey_type]
  · have he' := he
    unfold keycmp at he'
    simp only [hf, h0, he, he', if_false]
    rfl

/-- `hto_set` on addresses is `hto_set` on keys. -/
theorem htoSet_view (hc : Copies dup ht key heap) :
    Common.htoSet sc (ht.view heap.text) (keyOf heap.text ht.type key) val =
      ((htoSet sc dup ht key val heap).1,
        (htoSet sc dup ht key val heap).2.1.view (htoSet sc dup ht key val heap).2.2.text) := by
  unfold Common.htoSet htoSet
  by_cases hkey : key = keyFreedAddr
  · rw [if_pos (keyOf_eq_keyFreed.mpr hkey), if_pos hkey]
  rw [if_neg (mt keyOf_eq_keyFreed.mp hkey), if_neg hkey]
  have hbody : ∀ n h s,
      Common.setBody (ht.view heap.text) (keyOf heap.text ht.type key) val n h s =
        (setBody dup ht key val heap n h s).map id fun r : Int × Hto × Heap =>
          (r.1, r.2.1.view r.2.2.text) := fun n h s => setBody_view n s hkey hc
  have hdone : ∀ s, Common.setDone (ht.view heap.text) (keyOf heap.text ht.type key) val s =
      (fun r : Int × Hto × Heap => (r.1, r.2.1.view r.2.2.text))
        (setDone dup ht key val heap s) := by
    rintro ⟨slot, tryForthisslot⟩
    cases slot with
    | none => rfl
    | some g => exact Prod.ext rfl (insert_view _ _ hkey hc).symm
  exact foreachProbe_map _ hbody hdone ht.size 0 (none, 0)

theorem delBody_view (n : Nat) :
    Common.delBody (fun _ => true) (ht.view heap.text) (keyOf heap.text ht.type key) n h () =
      (delBody ht key heap n h ()).map id fun r : BitVec 32 × Hto × Heap =>
        some (r.1, r.2.1.view r.2.2.text) := by
  unfold Common.delBody delBody
  simp only [view_key, view_val, keyOf_eq_keyFreed, keyOf_eq_null]
  by_cases hf : (ht.bucket h).key = keyFreedAddr
  · simp only [hf, if_true]
    rfl
  by_cases h0 : (ht.bucket h).key = 0
  · simp only [h0, if_true, if_neg (show ¬ (0 : Addr) = keyFreedAddr by decide)]
    rfl
  by_cases he : keycmp heap.text ht key (ht.bucket h).key = 0
  · have he' := he
    unfold keycmp at he'
    have hview : ((ht.setKey h keyFreedAddr).setVal h 0).view heap.text =
        ((ht.view heap.text).setKey h .keyFreed).setVal h 0 := by
      rw [view_setVal, view_setKey, keyOf_keyFreed]
    simp only [hf, h0, he, he', if_true, if_false, ← hview]
    rfl
  · have he' := he
    unfold keycmp at he'
    simp only [hf, h0, he, he', if_false]
    rfl

/-- `hto_del` on addresses is `hto_del` on keys, where `FREE` returns for each key. -/
theorem htoDel_view :
    Common.htoDel sc (fun _ => true) (ht.view heap.text) (keyOf heap.text ht.type key) =
      some ((htoDel sc ht key heap).1,
        (htoDel sc ht key heap).2.1.view (htoDel sc ht key heap).2.2.text) := by
  have hbody : ∀ n h s,
      Common.delBody (fun _ => true) (ht.view heap.text) (keyOf heap.text ht.type key) n h s =
        (delBody ht key heap n h s).map id fun r : BitVec 32 × Hto × Heap =>
          some (r.1, r.2.1.view r.2.2.text) := fun n h _ => delBody_view n
  have hdone : ∀ _ : Unit, (some (0, ht.view heap.text) : Option (BitVec 32 × Common.Hto)) =
      (fun r : BitVec 32 × Hto × Heap => some (r.1, r.2.1.view r.2.2.text)) (0, ht, heap) :=
    fun _ => rfl
  unfold Common.htoDel htoDel
  exact foreachProbe_map _ hbody hdone ht.size 0 ()

end

/-! ## The keys that a table owns -/

/-- The copy that is at the address of a key: pointers are no copies. -/
def owned : KeyType → Addr → Option Addr
  | .pointer, _ => none
  | .string, a => if a ≠ 0 ∧ a ≠ keyFreedAddr then some a else none

/-- The copies that the slots of a table hold. -/
def Hto.copies (ht : Hto) (h : Nat) : Option Addr :=
  if h < ht.size then owned ht.type (ht.bucket h).key else none

/-- Slot `h` holds the key that `key` is equal to. -/
def Hto.HoldsAt (text : Addr → CStr) (ht : Hto) (key : Addr) (h : Nat) : Prop :=
  (ht.bucket h).key ≠ 0 ∧ (ht.bucket h).key ≠ keyFreedAddr ∧
    keycmp text ht key (ht.bucket h).key = 0

/-- The search for the key comes to a slot that holds it before it comes to one that has
never been used. -/
def Finds (signedChar : Bool) (text : Addr → CStr) (ht : Hto) (key : Addr) : Prop :=
  ∃ n, n < ht.size ∧ ht.HoldsAt text key (hash signedChar text ht key n) ∧
    ∀ m, m < n → (ht.bucket (hash signedChar text ht key m)).key ≠ 0

section
variable {sc : Bool} {text : Addr → CStr} {dup : Strdup} {ht ht' : Hto} {heap heap' : Heap}
  {h g n : Nat} {key a : Addr} {val : BitVec 32}

@[simp] theorem owned_zero (type : KeyType) : owned type 0 = none := by
  cases type <;> simp [owned]

@[simp] theorem owned_keyFreed (type : KeyType) : owned type keyFreedAddr = none := by
  cases type <;> simp [owned]

theorem owned_eq_some {type : KeyType} {b : Addr} : owned type b = some a ↔
    type = .string ∧ b = a ∧ b ≠ 0 ∧ b ≠ keyFreedAddr := by
  cases type <;> simp [owned]
  grind

@[simp] theorem copies_setVal : (ht.setVal h val).copies = ht.copies := by
  funext j
  unfold Hto.copies
  by_cases hj : j = h
  · simp [Hto.setVal, hj]
  · simp [Hto.setVal, hj]

theorem copies_setKey (hlt : h < ht.size) :
    (ht.setKey h a).copies = Function.update ht.copies h (owned ht.type a) := by
  funext j
  unfold Hto.copies
  by_cases hj : j = h
  · simp [Hto.setKey, hj, hlt]
  · simp [Hto.setKey, hj]

theorem copies_of_lt (hlt : h < ht.size) : ht.copies h = owned ht.type (ht.bucket h).key :=
  if_pos hlt

theorem copies_of_le (hle : ht.size ≤ h) : ht.copies h = none :=
  if_neg (Nat.not_lt.mpr hle)

/-- A table of pointers owns no key. -/
theorem copies_of_pointer (htype : ht.type = .pointer) : ht.copies = fun _ => none := by
  funext j
  unfold Hto.copies
  rw [htype]
  simp [owned]

theorem copies_of_keyFreed (hlt : h < ht.size) (hkey : (ht.bucket h).key = keyFreedAddr) :
    ht.copies h = none := by
  rw [copies_of_lt hlt, hkey, owned_keyFreed]

theorem copies_of_zero (hlt : h < ht.size) (hkey : (ht.bucket h).key = 0) :
    ht.copies h = none := by
  rw [copies_of_lt hlt, hkey, owned_zero]

theorem hash_lt_size (hpos : 0 < ht.size) : hash sc text ht key n < ht.size :=
  Nat.mod_lt _ hpos

/-! ## What a call does with the keys -/

/-- What a call does with a table and the heap: it keeps the fields `type` and `size`,
and the copies change as a table may change its cells. -/
structure Turns (ht : Hto) (heap : Heap) (ht' : Hto) (heap' : Heap) : Prop where
  type : ht'.type = ht.type
  size : ht'.size = ht.size
  change : Change ht.copies heap.log ht'.copies heap'.log

theorem Turns.refl : Turns ht heap ht heap := ⟨rfl, rfl, .keep⟩

/-- A key is moved to a freed slot. -/
theorem Turns.move (hh : h < ht.size) (hg : g < ht.size) (hkey : (ht.bucket g).key = keyFreedAddr) :
    Turns ht heap (((ht.setKey h keyFreedAddr).setKey g (ht.bucket h).key).setVal g val) heap where
  type := rfl
  size := rfl
  change := by
    have hcopies : (((ht.setKey h keyFreedAddr).setKey g (ht.bucket h).key).setVal g val).copies =
        Function.update (Function.update ht.copies h none) g (ht.copies h) := by
      rw [copies_setVal, copies_setKey (by exact hg), copies_setKey hh, setKey_type,
        owned_keyFreed, copies_of_lt hh]
    rw [hcopies]
    exact .move h g (copies_of_keyFreed hg hkey)

/-- A slot without a key receives what `keydup` returns. -/
theorem Turns.insert (e f : BitVec 32) (hg : g < ht.size) (hnone : ht.copies g = none) :
    Turns ht heap (((ht.counts e f).setKey g (keydup dup (ht.counts e f) key heap).1).setVal g val)
      (keydup dup (ht.counts e f) key heap).2 where
  type := rfl
  size := rfl
  change := by
    have hcopies : (ht.counts e f).copies = ht.copies := rfl
    have htype : (ht.counts e f).type = ht.type := rfl
    have hsame : Function.update ht.copies g none = ht.copies := by
      rw [← hnone, Function.update_eq_self]
    rw [keydup_counts, copies_setVal, copies_setKey (by exact hg), hcopies, htype]
    unfold keydup
    cases htype : ht.type with
    | pointer =>
      simp only [owned]
      rw [hsame]
      exact .keep
    | string =>
      simp only [strdup]
      by_cases h0 : dup.pick heap = 0
      · rw [if_pos h0, owned_zero, hsame]
        exact .keep
      · have hsome : owned .string (dup.pick heap) = some (dup.pick heap) :=
          owned_eq_some.mpr ⟨rfl, rfl, h0, dup.ne_keyFreed heap⟩
        rw [if_neg h0, hsome]
        exact .alloc g (dup.pick heap) hnone (dup.fresh heap h0)

variable (sc text ht key heap) in
/-- `hto_get` moves a key, or none. -/
theorem htoGet_turns : Turns ht heap (htoGet sc text ht key).2 heap := by
  unfold htoGet
  -- the freed slot that the loop remembers
  refine foreachProbe_rule
    (fun _ slot => ∀ g, slot = some g → g < ht.size ∧ (ht.bucket g).key = keyFreedAddr)
    (fun r : BitVec 32 × Hto => Turns ht heap r.2 heap) (fun _ h => absurd h (by simp)) ?_
    (fun _ _ => .refl)
  intro n slot hn hslot
  have hlt : hash sc text ht key n < ht.size := hash_lt_size (by omega)
  unfold getBody
  by_cases hf : (ht.bucket (hash sc text ht key n)).key = keyFreedAddr
  · simp only [hf, if_true]
    intro g hg
    cases slot with
    | none => exact Option.some.inj hg ▸ ⟨hlt, hf⟩
    | some g' => exact hslot g hg
  by_cases h0 : (ht.bucket (hash sc text ht key n)).key = 0
  · simp only [h0, if_true]
    rw [if_neg (by decide)]
    exact .refl
  by_cases he : keycmp text ht key (ht.bucket (hash sc text ht key n)).key = 0
  · simp only [hf, h0, he, if_true, if_false]
    cases slot with
    | none => exact .refl
    | some g => exact .move hlt (hslot g rfl).1 (hslot g rfl).2
  · simp only [hf, h0, he, if_false]
    exact hslot

variable (sc dup ht key val heap) in
/-- `hto_set` moves a key, or stores what `keydup` returns, or changes no key. -/
theorem htoSet_turns :
    Turns ht heap (htoSet sc dup ht key val heap).2.1 (htoSet sc dup ht key val heap).2.2 := by
  unfold htoSet
  split
  · exact .refl
  refine foreachProbe_rule
    (fun _ (s : Option Nat × Nat) =>
      ∀ g, s.1 = some g → g < ht.size ∧ (ht.bucket g).key = keyFreedAddr)
    (fun r : Int × Hto × Heap => Turns ht heap r.2.1 r.2.2) (fun _ h => absurd h (by simp)) ?_ ?_
  · rintro n ⟨slot, tryForthisslot⟩ hn hslot
    have hlt : hash sc heap.text ht key n < ht.size := hash_lt_size (by omega)
    unfold setBody
    by_cases hf : (ht.bucket (hash sc heap.text ht key n)).key = keyFreedAddr
    · simp only [hf, if_true]
      intro g hg
      cases slot with
      | none => exact Option.some.inj hg ▸ ⟨hlt, hf⟩
      | some g' => exact hslot g hg
    by_cases h0 : (ht.bucket (hash sc heap.text ht key n)).key = 0
    · simp only [h0, if_true]
      rw [if_neg (by decide)]
      cases slot with
      | none => exact Turns.insert (ht.empty - 1) ht.freed hlt (copies_of_zero hlt h0)
      | some g =>
        obtain ⟨hg, hkey⟩ := hslot g rfl
        exact Turns.insert ht.empty (ht.freed - 1) hg (copies_of_keyFreed hg hkey)
    by_cases he : keycmp heap.text ht key (ht.bucket (hash sc heap.text ht key n)).key = 0
    · simp only [hf, h0, he, if_true, if_false]
      cases slot with
      | none => exact ⟨rfl, rfl, by rw [copies_setVal]; exact .keep⟩
      | some g => exact .move hlt (hslot g rfl).1 (hslot g rfl).2
    · simp only [hf, h0, he, if_false]
      exact hslot
  · rintro ⟨slot, tryForthisslot⟩ hslot
    cases slot with
    | none => exact .refl
    | some g =>
      obtain ⟨hg, hkey⟩ := hslot g rfl
      exact Turns.insert ht.empty (ht.freed - 1) hg (copies_of_keyFreed hg hkey)

/-- What `hto_del` does: it frees the key of one slot if the search finds it, and
nothing if it does not. -/
inductive Dels (ht : Hto) (heap : Heap) (found : Prop) : Hto → Heap → Prop
  | found (h : Nat) (ht' : Hto) (hfound : found) (hlt : h < ht.size)
      (h0 : (ht.bucket h).key ≠ 0) (hf : (ht.bucket h).key ≠ keyFreedAddr)
      (htype : ht'.type = ht.type) (hsize : ht'.size = ht.size)
      (hcopies : ht'.copies = Function.update ht.copies h none) :
      Dels ht heap found ht' (free (ht.bucket h).key heap)
  | missing (hfound : ¬ found) : Dels ht heap found ht heap

variable (sc ht key heap) in
theorem htoDel_dels : Dels ht heap (Finds sc heap.text ht key) (htoDel sc ht key heap).2.1
    (htoDel sc ht key heap).2.2 := by
  unfold htoDel
  -- the slots before try `n` have been used, and none holds the key
  refine foreachProbe_rule
    (fun n (_ : Unit) => ∀ m, m < n → (ht.bucket (hash sc heap.text ht key m)).key ≠ 0 ∧
      ¬ ht.HoldsAt heap.text key (hash sc heap.text ht key m))
    (fun r : BitVec 32 × Hto × Heap => Dels ht heap (Finds sc heap.text ht key) r.2.1 r.2.2)
    (fun m hm => absurd hm (Nat.not_lt_zero m)) ?_ ?_
  · rintro n ⟨⟩ hn hbefore
    have hlt : hash sc heap.text ht key n < ht.size := hash_lt_size (by omega)
    have hnext : (ht.bucket (hash sc heap.text ht key n)).key ≠ 0 →
        ¬ ht.HoldsAt heap.text key (hash sc heap.text ht key n) →
        ∀ m, m < n + 1 → (ht.bucket (hash sc heap.text ht key m)).key ≠ 0 ∧
          ¬ ht.HoldsAt heap.text key (hash sc heap.text ht key m) := by
      intro h0 hno m hm
      rcases Nat.lt_succ_iff_lt_or_eq.mp hm with hm | rfl
      · exact hbefore m hm
      · exact ⟨h0, hno⟩
    unfold delBody
    by_cases hf : (ht.bucket (hash sc heap.text ht key n)).key = keyFreedAddr
    · simp only [hf, if_true]
      refine hnext ?_ fun hhold => hhold.2.1 hf
      rw [hf]
      decide
    by_cases h0 : (ht.bucket (hash sc heap.text ht key n)).key = 0
    · simp only [h0, if_true]
      rw [if_neg (by decide)]
      refine .missing fun ⟨k, hk, hhold, hused⟩ => ?_
      rcases Nat.lt_trichotomy k n with hkn | rfl | hnk
      · exact (hbefore k hkn).2 hhold
      · exact hhold.1 h0
      · exact hused n hnk h0
    by_cases he : keycmp heap.text ht key (ht.bucket (hash sc heap.text ht key n)).key = 0
    · simp only [hf, h0, he, if_true, if_false]
      have hfinds : Finds sc heap.text ht key :=
        ⟨n, hn, ⟨h0, hf, he⟩, fun m hm => (hbefore m hm).1⟩
      refine .found _ _ hfinds hlt h0 hf rfl rfl ?_
      have hcopies : ((ht.setKey (hash sc heap.text ht key n) keyFreedAddr).setVal
          (hash sc heap.text ht key n) 0).copies =
          Function.update ht.copies (hash sc heap.text ht key n) none := by
        rw [copies_setVal, copies_setKey hlt, owned_keyFreed]
      exact hcopies
    · simp only [hf, h0, he, if_false]
      exact hnext h0 fun hhold => he hhold.2.2
  · rintro ⟨⟩ hall
    exact .missing fun ⟨k, hk, hhold, _⟩ => (hall k hk).2 hhold

/-- In a table of strings `hto_del` frees a copy. -/
theorem htoDel_turns (htype : ht.type = .string) :
    Turns ht heap (htoDel sc ht key heap).2.1 (htoDel sc ht key heap).2.2 := by
  have hdels := htoDel_dels sc ht heap key
  generalize (htoDel sc ht key heap).2.1 = ht', (htoDel sc ht key heap).2.2 = heap' at hdels ⊢
  cases hdels with
  | found h ht' hfound hlt h0 hf htype' hsize hcopies =>
    refine ⟨htype', hsize, ?_⟩
    rw [hcopies]
    refine .free h _ ?_
    rw [copies_of_lt hlt]
    exact owned_eq_some.mpr ⟨htype, rfl, h0, hf⟩
  | missing => exact .refl

theorem htoDel_found (hfound : Finds sc heap.text ht key) :
    ∃ a, (htoDel sc ht key heap).2.2.log = .free a :: heap.log := by
  have hdels := htoDel_dels sc ht heap key
  generalize (htoDel sc ht key heap).2.1 = ht', (htoDel sc ht key heap).2.2 = heap' at hdels ⊢
  cases hdels with
  | found h ht' => exact ⟨_, rfl⟩
  | missing hno => exact absurd hfound hno

theorem htoDel_missing (hno : ¬ Finds sc heap.text ht key) :
    (htoDel sc ht key heap).2.1 = ht ∧ (htoDel sc ht key heap).2.2 = heap := by
  have hdels := htoDel_dels sc ht heap key
  generalize (htoDel sc ht key heap).2.1 = ht', (htoDel sc ht key heap).2.2 = heap' at hdels ⊢
  cases hdels with
  | found h ht' hfound => exact absurd hfound hno
  | missing => exact ⟨rfl, rfl⟩

end

/-! ## Runs -/

/-- A table, while there is one, and the heap. -/
structure Sys where
  ht : Option Hto
  heap : Heap

/-- A step of a run: a call, or a write of the callers into the memory. -/
inductive Call where
  | set (key : Addr) (val : BitVec 32)
  | get (key : Addr)
  | del (key : Addr)
  | rehash (percent : BitVec 32) (malloc : Bool)
  | destroy
  | write (text : Addr → CStr)

/-- `freekeyfn`: `FREE` for strings, `NULL` for pointers. -/
def freekeyfn : KeyType → Option (Addr → Heap → Heap)
  | .string => some free
  | .pointer => none

section
variable (signedChar : Bool) (dup : Strdup)

/-- One step.  There are no calls without a table. -/
def Sys.step (s : Sys) (call : Call) : Sys :=
  match call, s.ht with
  | .set key val, some ht =>
    let (_, ht, heap) := htoSet signedChar dup ht key val s.heap
    { ht := some ht, heap := heap }
  | .get key, some ht => { s with ht := some (htoGet signedChar s.heap.text ht key).2 }
  | .del key, some ht =>
    let (_, ht, heap) := htoDel signedChar ht key s.heap
    { ht := some ht, heap := heap }
  | .rehash percent malloc, pht =>
    let (_, pht, heap) := htoRehash signedChar dup pht percent malloc s.heap
    { ht := pht, heap := heap }
  | .destroy, some ht => { ht := none, heap := htoDestroy ht (freekeyfn ht.type) s.heap }
  | .write text, ht => { ht := ht, heap := { s.heap with text := text } }
  | _, none => s

/-- The steps of a run from `s`. -/
def Sys.run (s : Sys) (calls : List Call) : Sys := calls.foldl (Sys.step signedChar dup) s

end

/-- The state after `hto_create`: no key has been copied. -/
def Sys.start (nb type : Nat) (malloc : Bool) (text : Addr → CStr) : Sys :=
  { ht := htoCreate nb type malloc, heap := { text := text, log := [] } }

/-- The copies that a live table holds. -/
def Sys.copies (s : Sys) (h : Nat) : Option Addr := s.ht.bind fun ht => ht.copies h

/-- `FREE` has been applied to keys only that were copies in use; a copy in a live table
is in use, and each other has been freed once. -/
def Sys.KeysOwned (s : Sys) : Prop := Accounted s.copies s.heap.log

/-- The steps that keep to the owners of the keys: `hto_del` does not find a pointer, and
`hto_rehash` does not replace a table that holds copies. -/
def Sys.Keeps (signedChar : Bool) (s : Sys) (call : Call) : Prop :=
  match call, s.ht with
  | .del key, some ht => ht.type = .pointer → ¬ Finds signedChar s.heap.text ht key
  | .rehash percent malloc, some ht => ht.type = .string →
      percent = 0 ∨ rehashTable ht percent malloc = none ∨ ∀ h, ht.copies h = none
  | _, _ => True

section
variable {sc : Bool} {dup : Strdup} {ht ht' : Hto} {heap heap' : Heap}

/-! ## The end of a table -/

/-- The copies of the slots from `k` on. -/
def Hto.copiesFrom (ht : Hto) (k h : Nat) : Option Addr := if h < k then none else ht.copies h

theorem copiesFrom_self (k : Nat) : ht.copiesFrom k k = ht.copies k := if_neg (Nat.lt_irrefl k)

theorem copiesFrom_succ (k : Nat) :
    ht.copiesFrom (k + 1) = Function.update (ht.copiesFrom k) k none := by
  funext h
  by_cases hh : h = k
  · simp [Hto.copiesFrom, hh]
  · rw [Function.update_of_ne hh]
    exact if_congr (by omega) rfl rfl

theorem copiesFrom_size : ht.copiesFrom ht.size = fun _ => none := by
  funext h
  by_cases hlt : h < ht.size
  · exact if_pos hlt
  · exact (if_neg hlt).trans (copies_of_le (Nat.not_lt.mp hlt))

/-- The keys of the slots before `k` have been freed. -/
theorem destroyed_owns (ho : Owns ht.copies heap.log) (htype : ht.type = .string) (k : Nat)
    (hk : k ≤ ht.size) :
    Owns (ht.copiesFrom k) ((List.range k).foldl (destroyBody ht (some free)) heap).log := by
  induction k with
  | zero => exact ho
  | succ k ih =>
    have hprev := ih (by omega)
    have hat : ht.copiesFrom k k = owned .string (ht.bucket k).key := by
      rw [copiesFrom_self, copies_of_lt hk, htype]
    rw [List.range_succ, List.foldl_append, List.foldl_cons, List.foldl_nil, copiesFrom_succ]
    generalize (List.range k).foldl (destroyBody ht (some free)) heap = heap' at hprev ⊢
    unfold destroyBody
    by_cases hkey : (ht.bucket k).key ≠ 0 ∧ (ht.bucket k).key ≠ keyFreedAddr
    · rw [if_pos hkey]
      exact hprev.free (hat.trans (owned_eq_some.mpr ⟨rfl, rfl, hkey⟩))
    · rw [if_neg hkey]
      have hnone : ht.copiesFrom k k = none := hat.trans (if_neg hkey)
      rw [← hnone, Function.update_eq_self]
      exact hprev

/-- Without `freekeyfn` no key is freed. -/
theorem destroyBody_none (l : List Nat) : l.foldl (destroyBody ht none) heap = heap := by
  induction l with
  | nil => rfl
  | cons h l ih =>
    have hbody : destroyBody ht none heap h = heap := ite_self heap
    rw [List.foldl_cons, hbody, ih]

/-- After `hto_destroy` all the copies of the table have been freed. -/
theorem htoDestroy_owns (ho : Owns ht.copies heap.log) :
    Owns (fun _ : Nat => none) (htoDestroy ht (freekeyfn ht.type) heap).log := by
  unfold htoDestroy
  cases htype : ht.type with
  | string =>
    rw [← copiesFrom_size]
    exact destroyed_owns ho htype ht.size le_rfl
  | pointer =>
    have hnone : freekeyfn .pointer = none := rfl
    rw [hnone, destroyBody_none, ← copies_of_pointer htype]
    exact ho

/-! ## A larger or smaller table -/

theorem htoCreate_spec {nb type : Nat} {malloc : Bool} (hc : htoCreate nb type malloc = some ht) :
    ht.type = (if type % 2 = 0 then .string else .pointer) ∧ ∀ h, ht.copies h = none := by
  unfold htoCreate at hc
  simp only at hc
  split at hc
  · exact absurd hc (by simp)
  split at hc
  · rw [Option.some.injEq] at hc
    subst hc
    refine ⟨rfl, fun h => ?_⟩
    unfold Hto.copies
    simp only [owned_zero, ite_self]
  · exact absurd hc (by simp)

theorem rehashTable_spec {percent : BitVec 32} {malloc : Bool}
    (hr : rehashTable ht percent malloc = some ht') :
    ht'.type = ht.type ∧ ht'.copies = fun _ => none := by
  unfold rehashTable at hr
  simp only at hr
  split at hr
  · exact absurd hr (by simp)
  obtain ⟨htype, hnone⟩ := htoCreate_spec hr
  refine ⟨?_, funext hnone⟩
  rw [htype]
  cases ht.type <;> rfl

theorem reinsert_turns (t : Hto × Heap) (i : Nat) :
    Turns t.1 t.2 (reinsert sc dup ht t i).1 (reinsert sc dup ht t i).2 := by
  obtain ⟨newHt, heap⟩ := t
  unfold reinsert
  simp only
  split
  · exact htoSet_turns sc dup newHt heap _ _
  · exact .refl

/-- In the loop of `hto_rehash` what is lost stays so. -/
theorem reinserted_lost {a : Addr} (l : List Nat) (t : Hto × Heap)
    (hl : Lost t.1.copies t.2.log a) :
    Lost (l.foldl (reinsert sc dup ht) t).1.copies (l.foldl (reinsert sc dup ht) t).2.log a := by
  induction l generalizing t with
  | nil => exact hl
  | cons i l ih => exact ih _ ((reinsert_turns t i).change.lost hl)

variable (sc dup ht) in
/-- The loop allocates nothing for a table of pointers. -/
theorem reinserted_pointers (l : List Nat) (t : Hto × Heap) (htype : t.1.type = .pointer) :
    (l.foldl (reinsert sc dup ht) t).1.type = .pointer ∧
      (l.foldl (reinsert sc dup ht) t).2.log = t.2.log := by
  induction l generalizing t with
  | nil => exact ⟨htype, rfl⟩
  | cons i l ih =>
    have hturns : Turns t.1 t.2 (reinsert sc dup ht t i).1 (reinsert sc dup ht t i).2 :=
      reinsert_turns t i
    have htype' := hturns.type.trans htype
    have hlog := hturns.change.log_eq (fun j => congrFun (copies_of_pointer htype) j)
      (fun j => congrFun (copies_of_pointer htype') j)
    obtain ⟨hend, hlog'⟩ := ih _ htype'
    exact ⟨hend, hlog'.trans hlog⟩

/-- The loop has nothing to insert when a table of strings holds no copy. -/
theorem reinserted_empty (htype : ht.type = .string) (hnone : ∀ h, ht.copies h = none)
    (t : Hto × Heap) : (List.range ht.size).foldl (reinsert sc dup ht) t = t := by
  have hskip : ∀ i, i < ht.size → ∀ t, reinsert sc dup ht t i = t := by
    intro i hi ⟨newHt, heap⟩
    have hkey := hnone i
    rw [copies_of_lt hi, htype] at hkey
    refine if_neg fun h => ?_
    rw [owned, if_pos h] at hkey
    exact absurd hkey (by simp)
  have hall : ∀ l : List Nat, (∀ i ∈ l, i < ht.size) → l.foldl (reinsert sc dup ht) t = t := by
    intro l hl
    induction l with
    | nil => rfl
    | cons i l ih =>
      rw [List.foldl_cons, hskip i (hl i List.mem_cons_self)]
      exact ih fun j hj => hl j (List.mem_cons_of_mem i hj)
  exact hall _ fun i hi => List.mem_range.mp hi

variable (sc dup) in
/-- A copy that `hto_rehash` reads from the old table is lost: the new table has a copy
of it. -/
theorem htoRehash_lost {percent : BitVec 32} {malloc : Bool} {newHt : Hto} {h : Nat} {a : Addr}
    (ho : Owns ht.copies heap.log) (hp : percent ≠ 0)
    (hr : rehashTable ht percent malloc = some newHt) (ha : ht.copies h = some a) :
    ∃ ht', (htoRehash sc dup (some ht) percent malloc heap).2.1 = some ht' ∧
      Lost ht'.copies (htoRehash sc dup (some ht) percent malloc heap).2.2.log a := by
  unfold htoRehash
  simp only [hp, if_false, hr]
  refine ⟨_, rfl, reinserted_lost (List.range ht.size) (newHt, heap) ⟨ho.held h a ha, fun j => ?_⟩⟩
  rw [(rehashTable_spec hr).2]
  simp

variable (sc dup) in
/-- `hto_rehash` of a table of pointers, or of one that holds no copy, or that fails. -/
theorem htoRehash_owns {percent : BitVec 32} {malloc : Bool} (ho : Owns ht.copies heap.log)
    (hk : ht.type = .string →
      percent = 0 ∨ rehashTable ht percent malloc = none ∨ ∀ h, ht.copies h = none) :
    ∃ ht', (htoRehash sc dup (some ht) percent malloc heap).2.1 = some ht' ∧
      Owns ht'.copies (htoRehash sc dup (some ht) percent malloc heap).2.2.log := by
  unfold htoRehash
  simp only
  by_cases hp : percent = 0
  · rw [if_pos hp]
    exact ⟨ht, rfl, ho⟩
  rw [if_neg hp]
  cases hr : rehashTable ht percent malloc with
  | none => exact ⟨ht, rfl, ho⟩
  | some newHt =>
    obtain ⟨htype', hcopies'⟩ := rehashTable_spec hr
    refine ⟨_, rfl, ?_⟩
    simp only
    cases htype : ht.type with
    | string =>
      have hnone : ∀ h, ht.copies h = none := by
        obtain h0 | hno | hnone := hk htype
        · exact absurd h0 hp
        · rw [hr] at hno
          exact absurd hno (by simp)
        · exact hnone
      rw [reinserted_empty htype hnone, hcopies', ← funext hnone]
      exact ho
    | pointer =>
      obtain ⟨hend, hlog⟩ := reinserted_pointers sc dup ht (List.range ht.size) (newHt, heap)
        (htype'.trans htype)
      rw [copies_of_pointer hend, hlog, ← copies_of_pointer htype]
      exact ho

/-! ## Runs keep the owners -/

theorem Sys.copies_some (ht : Hto) (heap : Heap) : (Sys.mk (some ht) heap).copies = ht.copies := rfl

variable (dup) in
/-- A step that keeps to the owners. -/
theorem Sys.step_owns {s : Sys} {call : Call} (ho : Owns s.copies s.heap.log)
    (hk : s.Keeps sc call) : Owns (s.step sc dup call).copies (s.step sc dup call).heap.log := by
  obtain ⟨pht, heap⟩ := s
  cases pht with
  | none =>
    cases call <;> exact ho
  | some ht =>
    cases call with
    | set key val => exact (htoSet_turns sc dup ht heap key val).change.owns ho
    | get key => exact (htoGet_turns sc heap.text ht heap key).change.owns ho
    | del key =>
      cases htype : ht.type with
      | string => exact (htoDel_turns htype).change.owns ho
      | pointer =>
        obtain ⟨hht, hheap⟩ := htoDel_missing (hk htype)
        simp only [Sys.step]
        rw [hht, hheap]
        exact ho
    | rehash percent malloc =>
      obtain ⟨ht', heq, howns⟩ := htoRehash_owns sc dup ho hk
      simp only [Sys.step]
      rw [heq]
      exact howns
    | destroy => exact htoDestroy_owns ho
    | write text => exact ho

variable (dup) in
/-- A step that does not keep to the owners frees a key of a caller, or loses a copy. -/
theorem Sys.step_breaks {s : Sys} {call : Call} (ho : Owns s.copies s.heap.log)
    (hk : ¬ s.Keeps sc call) : ¬ (s.step sc dup call).KeysOwned := by
  obtain ⟨pht, heap⟩ := s
  cases pht with
  | none => cases call <;> exact absurd trivial hk
  | some ht =>
    cases call with
    | set | get | destroy | write => exact absurd trivial hk
    | del key =>
      obtain ⟨htype, hfinds⟩ := Classical.not_imp.mp hk
      obtain ⟨a, hlog⟩ := htoDel_found (not_not.mp hfinds)
      have hsettled : ∀ a, Settled heap.log a := by
        refine fun a => ho.settled a fun h => ?_
        rw [Sys.copies_some, copies_of_pointer htype]
        simp
      intro howned
      have hsound := howned.sound
      simp only [Sys.step] at hsound
      rw [hlog] at hsound
      exact (hsettled a).not_held hsound.1
    | rehash percent malloc =>
      obtain ⟨htype, hnot⟩ := Classical.not_imp.mp hk
      rw [not_or, not_or, not_forall] at hnot
      obtain ⟨hp, hr, h, hh⟩ := hnot
      obtain ⟨newHt, hr⟩ := Option.ne_none_iff_exists'.mp hr
      obtain ⟨a, ha⟩ := Option.ne_none_iff_exists'.mp hh
      obtain ⟨ht', heq, hlost⟩ := htoRehash_lost sc dup ho hp hr ha
      intro howned
      simp only [Sys.step] at howned
      rw [heq] at howned
      exact howned.not_lost hlost

end

section
variable (signedChar : Bool) (dup : Strdup)

/-- From a state with its owners, the steps keep them all along if and only if each step
keeps to them. -/
theorem Sys.run_owned_iff {s : Sys} (ho : Owns s.copies s.heap.log) (calls : List Call) :
    (∀ done, done <+: calls → (s.run signedChar dup done).KeysOwned) ↔
      ∀ done call, done ++ [call] <+: calls →
        (s.run signedChar dup done).Keeps signedChar call := by
  have hkeep : ∀ s : Sys, ∀ call ∈ calls, Owns s.copies s.heap.log → s.Keeps signedChar call →
      Owns (s.step signedChar dup call).copies (s.step signedChar dup call).heap.log :=
    fun _ _ _ ho hk => Sys.step_owns dup ho hk
  have hbreak : ∀ s : Sys, ∀ call ∈ calls, Owns s.copies s.heap.log →
      ¬ s.Keeps signedChar call → ¬ (s.step signedChar dup call).KeysOwned :=
    fun _ _ _ ho hk => Sys.step_breaks dup ho hk
  exact foldl_prefix_iff calls (fun _ ho => ho.toAccounted) hkeep hbreak ho

/-- In every run of a table that `hto_create` makes, `FREE` is applied to copies in use
only, and each copy that no live table holds has been freed once, if and only if
`hto_del` never finds a pointer and `hto_rehash` never replaces a table with copies. -/
theorem htoRun_keysOwned_iff (nb type : Nat) (malloc : Bool) (text : Addr → CStr)
    (calls : List Call) :
    (∀ done, done <+: calls →
        ((Sys.start nb type malloc text).run signedChar dup done).KeysOwned) ↔
      ∀ done call, done ++ [call] <+: calls →
        ((Sys.start nb type malloc text).run signedChar dup done).Keeps signedChar call := by
  refine Sys.run_owned_iff signedChar dup ?_ calls
  have hcopies : (Sys.start nb type malloc text).copies = fun _ => none := by
    funext h
    unfold Sys.copies Sys.start
    cases hc : htoCreate nb type malloc with
    | none => rfl
    | some ht => exact (htoCreate_spec hc).2 h
  rw [hcopies]
  exact .nil

end

/-! ## A pointer that is freed, and a copy that is not -/

/-- The places of a small allocator. -/
def places : List Addr := [4096, 4112, 4128]

theorem places_ne : ∀ a ∈ places, a ≠ keyFreedAddr := by
  simp [places, keyFreedAddr]

/-- An allocator with three places. -/
def threePlaces : Strdup where
  pick heap := (places.find? fun a => ¬ Held heap.log a).getD 0
  fresh heap h0 := by
    cases hfind : places.find? fun a => ¬ Held heap.log a with
    | none =>
      rw [hfind] at h0
      exact absurd rfl h0
    | some a =>
      have hfree := List.find?_some hfind
      rw [decide_eq_true_eq] at hfree
      exact hfree
  ne_keyFreed heap := by
    cases hfind : places.find? fun a => ¬ Held heap.log a with
    | none =>
      have hne : (0 : Addr) ≠ keyFreedAddr := by decide
      exact hne
    | some a => exact places_ne a (List.mem_of_find?_eq_some hfind)

/-- A memory with the string `"a"` everywhere. -/
def textA (_ : Addr) : CStr := ⟨[97], by decide⟩

/-- `hto_del` frees the pointer 4096 of its caller.  `hto_rehash` copies the copy of
`"a"`, and nothing has it any more: it is never freed. -/
theorem hto_keys_not_owned :
    ¬ ((Sys.start 3 1 true textA).run false threePlaces [.set 4096 7, .del 4096]).KeysOwned ∧
      ¬ ((Sys.start 3 0 true textA).run false threePlaces
        [.set 8192 7, .rehash 100 true, .destroy]).KeysOwned := by
  have hlogs :
      ((Sys.start 3 1 true textA).run false threePlaces [.set 4096 7, .del 4096]).heap.log =
          [.free 4096] ∧
        ((Sys.start 3 0 true textA).run false threePlaces
          [.set 8192 7, .rehash 100 true, .destroy]).heap.log =
          [.free 4112, .alloc 4112, .alloc 4096] ∧
        ((Sys.start 3 0 true textA).run false threePlaces
          [.set 8192 7, .rehash 100 true, .destroy]).ht.isNone := by
    decide +kernel
  obtain ⟨hpointer, hstring, hgone⟩ := hlogs
  constructor
  · intro howned
    have hsound := howned.sound
    rw [hpointer] at hsound
    exact absurd hsound.1 (by decide)
  · intro howned
    have hsettled := howned.settled 4096 fun h => by
      rw [Sys.copies, Option.isNone_iff_eq_none.mp hgone, Option.bind_none]
      simp
    rw [hstring] at hsettled
    exact absurd hsettled (by decide)

end Ko6.Common.Own
