import Ko6.Common.HtopenCreate
import Ko6.Common.HtopenProbe
import Ko6.Lib.Placement

set_option autoImplicit false

/-!
# Common: growing and shrinking the hash table

`hto_rehash` allocates a table of another size and inserts the live keys in it, in the
order of their slots.  It does not look at what `hto_set` returns: a key that finds no
place in the new table is lost, and the old table is freed.

A new table has no freed slots, so each key takes the first empty slot of its probe
sequence.
-/

namespace Ko6.Common

open Ko6.Lib Ko6.Lib.OpenTable

/-! ## `hto_rehash` -/

/-- The number of entries that `hto_rehash` asks `largest_prime` for. -/
def rehashSize (ht : Hto) (percent : BitVec 32) : Nat :=
  (BitVec.ofNat 32 ht.size * percent).toNat / 100

/-- The table that `hto_rehash` allocates; `malloc` tells whether `MALLOC` gives a
block. -/
def rehashTable (ht : Hto) (percent : BitVec 32) (malloc : Bool) : Option Hto :=
  let newSize := rehashSize ht percent
  if newSize < 2 then none
  else
    let newSize := largestPrime newSize
    if malloc then htoCreate newSize (Own.typeBit ht.type) else none

section
variable (signedChar : Bool)

/-- The body of the loop of `hto_rehash`. -/
def reinsert (ht newHt : Hto) (i : Nat) : Hto :=
  let key := (ht.bucket i).key
  if key ≠ .null ∧ key ≠ .keyFreed then
    let val := (ht.bucket i).val
    (htoSet signedChar newHt key val).2
  else newHt

/-- `hto_rehash`: what it returns, and `*pht` after it. -/
def htoRehash (pht : Option Hto) (percent : BitVec 32) (malloc : Bool) :
    Option Hto × Option Hto :=
  match pht with
  | none => (none, none)
  | some ht =>
    if percent = 0 then (none, some ht)
    else
      match rehashTable ht percent malloc with
      | none => (none, some ht)
      | some newHt =>
        let newHt := (List.range ht.size).foldl (reinsert signedChar ht) newHt
        (some newHt, some newHt)

end

/-! ## The new table -/

/-- The live keys, in the order of their slots. -/
def Hto.keys (ht : Hto) : List Key := (htoForeach ht).map fun c => c.2.1

/-- The live keys that find no place among `n` slots. -/
def lostKeys (signedChar : Bool) (ht : Hto) (n : Nat) : List Key :=
  lost (hash signedChar { ht with size := n }) n ht.keys []

/-- `hto_rehash` gets a new table of `n` slots. -/
structure Replaced (ht : Hto) (percent : BitVec 32) (malloc : Bool) (n : Nat) : Prop where
  granted : malloc = true
  nonzero : percent ≠ 0
  two_le : 2 ≤ rehashSize ht percent
  size : n = largestPrime (rehashSize ht percent)
  bytes : 12 + n * 8 ≤ 4096

/-- No slot is freed. -/
def NoFreed (ht : Hto) : Prop := ∀ h, ht.slots h ≠ .freed

/-- The slots that are not empty. -/
def Taken (ht : Hto) (taken : List Nat) : Prop :=
  ∀ h, h < ht.size → (h ∈ taken ↔ ht.slots h ≠ .empty)

section
variable {sc malloc : Bool} {ht ht' newHt : Hto} {percent : BitVec 32} {n t : Nat} {key : Key}
  {val : BitVec 32} {m M : Key → Option (BitVec 32)} {taken : List Nat}

theorem htoCreate_spec {nb type : Nat} (hc : htoCreate nb type = some ht) :
    ht.type = (if type % 2 = 0 then .string else .pointer) ∧
      ht.size = largestPrime nb % 2 ^ 30 ∧ Own.createBytes nb ≤ 4096 ∧
      ∀ h, ht.slots h = .empty := by
  unfold htoCreate at hc
  simp only at hc
  split at hc
  · exact absurd hc (by simp)
  · rename_i hle
    rw [Option.some.injEq] at hc
    refine ⟨?_, ?_, Nat.not_lt.mp hle, fun h => slots_eq_empty.mpr ?_⟩
    all_goals rw [← hc]

/-- A prime is the largest one up to itself. -/
theorem largestPrime_of_prime (hp : n.Prime) (hn : n ≤ 65535 * 65535) : largestPrime n = n := by
  obtain ⟨-, hle, hmax⟩ := largestPrime_spec hp.two_le
  exact Nat.le_antisymm hle (hmax n hp (Nat.le_refl n) hn)

/-- The bytes of the new table do not pass 2³². -/
theorem rehashTable_eq_some (hp : percent ≠ 0) (hr : rehashTable ht percent malloc = some newHt) :
    Replaced ht percent malloc newHt.size ∧ newHt.type = ht.type ∧
      ∀ h, newHt.slots h = .empty := by
  unfold rehashTable at hr
  simp only at hr
  split at hr
  · exact absurd hr (by simp)
  rename_i h2
  split at hr
  case isFalse => exact absurd hr (by simp)
  rename_i hm
  have h2 : 2 ≤ rehashSize ht percent := Nat.not_lt.mp h2
  obtain ⟨hprime, hle, -⟩ := largestPrime_spec h2
  have hsmall : rehashSize ht percent < 2 ^ 32 / 100 + 1 := by
    have hlt := (BitVec.ofNat 32 ht.size * percent).isLt
    unfold rehashSize
    omega
  obtain ⟨htype, hsize, hbytes, hempty⟩ := htoCreate_spec hr
  rw [largestPrime_of_prime hprime (by omega), Nat.mod_eq_of_lt (by omega)] at hsize
  unfold Own.createBytes at hbytes
  rw [largestPrime_of_prime hprime (by omega), ← hsize, Nat.mod_eq_of_lt (by omega)] at hbytes
  refine ⟨⟨hm, hp, h2, hsize, hbytes⟩, ?_, hempty⟩
  rw [htype]
  cases ht.type <;> rfl

theorem Replaced.prime (hr : Replaced ht percent malloc n) : n.Prime := by
  rw [hr.size]
  exact (largestPrime_spec hr.two_le).1

theorem Replaced.exists_table (hr : Replaced ht percent malloc n) :
    ∃ newHt, rehashTable ht percent malloc = some newHt ∧ newHt.size = n := by
  obtain ⟨hm, hp, h2, hsize, hbytes⟩ := hr
  obtain ⟨hprime, hle, -⟩ := largestPrime_spec h2
  have hidem : largestPrime n = n := by
    rw [hsize]
    exact largestPrime_of_prime hprime (by omega)
  unfold rehashTable htoCreate
  simp only [hm, if_true, ← hsize, hidem]
  rw [if_neg (by omega), Nat.mod_eq_of_lt (by omega), if_neg (by omega)]
  exact ⟨_, rfl, Nat.mod_eq_of_lt (by omega)⟩

theorem htoInv_empty (hpos : 0 < ht.size) (hempty : ∀ h, ht.slots h = .empty) :
    HtoInv sc ht fun _ => none := by
  have hno : ∀ {h k v}, ht.slots h ≠ .live k v := by
    intro h k v hlive
    rw [hempty] at hlive
    exact absurd hlive (by simp)
  refine ⟨hpos, ⟨fun h k v _ hlive => absurd hlive hno, fun h g k v w _ _ hlive => absurd hlive hno⟩,
    fun k v => ?_, fun h k v hlive => absurd hlive hno, fun h _ => hempty h⟩
  simp [Binds, hno]

/-! ## The insertions -/

/-- A new key takes the first empty slot of its tries, in a table without freed slots. -/
theorem HtoInv.set_fresh (hi : HtoInv sc ht m) (hfree : NoFreed ht) (hk : key.Fits ht.type)
    (hnew : m key = none) (val : BitVec 32) :
    (∃ t, t < ht.size ∧ ht.slots (hash sc ht key t) = .empty ∧
      (∀ u, u < t → ht.slots (hash sc ht key u) ≠ .empty) ∧ (htoSet sc ht key val).1 = t ∧
      (htoSet sc ht key val).2.slots =
        Function.update ht.slots (hash sc ht key t) (.live key val)) ∨
    (∀ u, u < ht.size → ht.slots (hash sc ht key u) ≠ .empty) ∧
      htoSet sc ht key val = (-enospc, ht) := by
  have hnone := hi.absent_slots hnew
  unfold htoSet
  rw [if_neg hk.ne_keyFreed]
  refine foreachProbe_rule
    (fun n (s : Option Nat × Nat) => s.1 = none ∧
      ∀ u, u < n → ht.slots (hash sc ht key u) ≠ .empty)
    (fun r : Int × Hto => (∃ t, t < ht.size ∧ ht.slots (hash sc ht key t) = .empty ∧
        (∀ u, u < t → ht.slots (hash sc ht key u) ≠ .empty) ∧ r.1 = t ∧
        r.2.slots = Function.update ht.slots (hash sc ht key t) (.live key val)) ∨
      (∀ u, u < ht.size → ht.slots (hash sc ht key u) ≠ .empty) ∧ r = (-enospc, ht))
    ⟨rfl, fun u hu => absurd hu (Nat.not_lt_zero u)⟩ ?_ ?_
  · rintro n ⟨slot, tryForthisslot⟩ hn ⟨rfl, hbefore⟩
    unfold setBody
    have hf : (ht.bucket (hash sc ht key n)).key ≠ .keyFreed := fun hkey =>
      hfree _ (slots_eq_freed.mpr hkey)
    by_cases h0 : (ht.bucket (hash sc ht key n)).key = .null
    · have hempty := slots_eq_empty.mpr h0
      simp only [h0, reduceCtorEq, if_true, if_false]
      refine .inl ⟨n, hn, hempty, hbefore, rfl, ?_⟩
      have hslots : ((Hto.setKey { ht with empty := ht.empty - 1 } (hash sc ht key n) key).setVal
          (hash sc ht key n) val).slots =
          OpenTable.put (Hto.slots { ht with empty := ht.empty - 1 }) (hash sc ht key n) key val :=
        slots_insert hk fun j _ => hnone j
      have herase : OpenTable.erase ht.slots key = ht.slots := funext fun j => erase_of_absent (hnone j)
      have hput : OpenTable.put ht.slots (hash sc ht key n) key val =
          Function.update ht.slots (hash sc ht key n) (.live key val) := by
        unfold OpenTable.put
        rw [herase]
      exact hslots.trans hput
    · have hlive := slots_live h0 hf
      have he : keycmp ht key (ht.bucket (hash sc ht key n)).key ≠ 0 := by
        rw [ne_eq, keycmp_eq_zero hk (hi.fits _ _ _ hlive)]
        intro he
        rw [← he] at hlive
        exact hnone _ _ hlive
      simp only [hf, h0, he, if_false]
      refine ⟨trivial, fun u hu => ?_⟩
      rcases Nat.lt_succ_iff_lt_or_eq.mp hu with hu | rfl
      · exact hbefore u hu
      · rw [hlive]
        simp
  · rintro ⟨slot, tryForthisslot⟩ ⟨rfl, hall⟩
    exact .inr ⟨hall, rfl⟩

/-- The keys of `ks` that are not lost are given their values by `M`, and the other keys
keep theirs. -/
def placed (M m : Key → Option (BitVec 32)) (ks lostKs : List Key) (k : Key) :
    Option (BitVec 32) :=
  if k ∈ ks ∧ k ∉ lostKs then M k else m k

/-- A key that takes a slot is placed first. -/
theorem placed_cons_of_try {probe : Key → Nat → Nat} {ks : List Key} {t : Nat}
    (htry : freeTry probe n taken key = some t) (hMk : M key = some val) (hkey : key ∉ ks) :
    placed M m (key :: ks) (lost probe n (key :: ks) taken) =
      placed M (Function.update m key (some val)) ks (lost probe n ks (probe key t :: taken)) := by
  rw [lost, htry]
  funext k
  unfold placed
  by_cases hkk : k = key
  · subst hkk
    have hno : k ∉ lost probe n ks (probe k t :: taken) := mt (lost_subset _ _ k) hkey
    simp [hno, hkey, hMk]
  · simp [hkk]

/-- A key without a try is not placed. -/
theorem placed_cons_of_full {probe : Key → Nat → Nat} {ks : List Key}
    (htry : freeTry probe n taken key = none) (hkey : key ∉ ks) :
    placed M m (key :: ks) (lost probe n (key :: ks) taken) =
      placed M m ks (lost probe n ks taken) := by
  rw [lost, htry]
  funext k
  unfold placed
  by_cases hkk : k = key
  · subst hkk
    simp [hkey]
  · simp [hkk]

/-- A key comes into slot `h`. -/
theorem NoFreed.fill {ht ht' : Hto} {h : Nat} (hfree : NoFreed ht)
    (hslots : ht'.slots = Function.update ht.slots h (.live key val)) : NoFreed ht' := by
  intro j
  rw [hslots]
  by_cases hj : j = h
  · rw [hj, Function.update_self]
    simp
  · rw [Function.update_of_ne hj]
    exact hfree j

theorem Taken.fill {ht ht' : Hto} {h : Nat} (htaken : Taken ht taken)
    (hsize : ht'.size = ht.size)
    (hslots : ht'.slots = Function.update ht.slots h (.live key val)) :
    Taken ht' (h :: taken) := by
  intro j hj
  rw [hsize] at hj
  rw [hslots, List.mem_cons]
  by_cases he : j = h
  · rw [he, Function.update_self]
    simp
  · rw [Function.update_of_ne he, ← htaken j hj]
    simp [he]

/-- The entries of a table with distinct keys are inserted one after the other. -/
theorem HtoInv.insert_all {probe : Key → Nat → Nat} (es : List (Key × BitVec 32)) (hi : HtoInv sc newHt m)
    (hfree : NoFreed newHt) (ht : Taken newHt taken) (hfits : ∀ e ∈ es, e.1.Fits newHt.type)
    (hM : ∀ e ∈ es, M e.1 = some e.2) (hnew : ∀ e ∈ es, m e.1 = none)
    (hnd : (es.map Prod.fst).Nodup) (hsize : newHt.size = n)
    (hprobe : hash sc newHt = probe) :
    HtoInv sc (es.foldl (fun t e => (htoSet sc t e.1 e.2).2) newHt)
        (placed M m (es.map Prod.fst)
          (lost probe n (es.map Prod.fst) taken)) ∧
      SameShape newHt (es.foldl (fun t e => (htoSet sc t e.1 e.2).2) newHt) ∧
      NoFreed (es.foldl (fun t e => (htoSet sc t e.1 e.2).2) newHt) := by
  induction es generalizing newHt m taken with
  | nil =>
    have hm : placed M m [] (lost probe n [] taken) = m := by
      funext k
      simp [placed]
    exact ⟨hm.symm ▸ hi, ⟨rfl, rfl⟩, hfree⟩
  | cons e es ih =>
    obtain ⟨key, val⟩ := e
    obtain ⟨hkey, hnd'⟩ := List.nodup_cons.mp hnd
    have hk : key.Fits newHt.type := hfits _ List.mem_cons_self
    have hMk : M key = some val := hM _ List.mem_cons_self
    have hmk : m key = none := hnew _ List.mem_cons_self
    have hother : ∀ e ∈ es, e.1 ≠ key := by
      intro e he hek
      exact hkey (List.mem_map.mpr ⟨e, he, hek⟩)
    have hprobe' : ∀ u, probe key u = hash sc newHt key u := fun u => by
      rw [hprobe]
    obtain ⟨hset, hshape⟩ := hi.set hk val
    rw [List.foldl_cons, List.map_cons]
    rcases hi.set_fresh hfree hk hmk val with ⟨t, ht₁, hempty, hbefore, hret, hslots⟩ | ⟨hall, hret⟩
    · -- the key takes a slot
      have hlt : hash sc newHt key t < newHt.size := hash_lt hi.size_pos
      have htry : freeTry probe n taken key = some t := by
        rw [freeTry_eq_some]
        refine ⟨hsize ▸ ht₁, ?_, fun u hu => ?_⟩
        · rw [hprobe', ht _ hlt]
          exact fun hne => hne hempty
        · rw [hprobe', ht _ (hash_lt hi.size_pos)]
          exact hbefore u hu
      have htaken : Taken (htoSet sc newHt key val).2 (probe key t :: taken) := by
        rw [hprobe']
        exact ht.fill hshape.size hslots
      rw [hret, if_pos (Int.natCast_nonneg t)] at hset
      obtain ⟨hfinal, hshape', hfree'⟩ := ih hset (hfree.fill hslots) htaken
        (fun e he => by
          rw [hshape.type]
          exact hfits e (List.mem_cons_of_mem _ he))
        (fun e he => hM e (List.mem_cons_of_mem _ he))
        (fun e he => by
          rw [Function.update_of_ne (hother e he)]
          exact hnew e (List.mem_cons_of_mem _ he))
        hnd' (hshape.size.trans hsize) (hshape.hash.trans hprobe)
      refine ⟨?_, ⟨hshape'.type.trans hshape.type, hshape'.size.trans hshape.size⟩, hfree'⟩
      rw [placed_cons_of_try htry hMk hkey]
      exact hfinal
    · -- the key is lost
      have htry : freeTry probe n taken key = none := by
        rw [freeTry_eq_none, ← hsize]
        intro u hu
        rw [hprobe', ht _ (hash_lt hi.size_pos)]
        exact hall u hu
      have hsame : (htoSet sc newHt key val).2 = newHt := by rw [hret]
      rw [hsame]
      obtain ⟨hfinal, hshape', hfree'⟩ := ih hi hfree ht
        (fun e he => hfits e (List.mem_cons_of_mem _ he))
        (fun e he => hM e (List.mem_cons_of_mem _ he))
        (fun e he => hnew e (List.mem_cons_of_mem _ he)) hnd' hsize hprobe
      refine ⟨?_, hshape', hfree'⟩
      rw [placed_cons_of_full htry hkey]
      exact hfinal

/-- The loop of `hto_rehash` goes over the entries. -/
theorem foldl_reinsert :
    (List.range ht.size).foldl (reinsert sc ht) newHt =
      ((htoForeach ht).map Prod.snd).foldl (fun t e => (htoSet sc t e.1 e.2).2) newHt := by
  rw [List.foldl_map, htoForeach, List.foldl_filterMap]
  congr 1
  funext t i
  unfold reinsert
  by_cases hkey : (ht.bucket i).key ≠ .null ∧ (ht.bucket i).key ≠ .keyFreed
  · simp only [if_pos hkey]
  · simp only [if_neg hkey]

/-- The map after `hto_rehash`: the lost keys are gone. -/
def kept (m : Key → Option (BitVec 32)) (lostKs : List Key) (k : Key) : Option (BitVec 32) :=
  if k ∈ lostKs then none else m k

theorem mem_keys (hi : HtoInv sc ht m) : key ∈ ht.keys ↔ m key ≠ none := by
  unfold Hto.keys
  rw [Option.ne_none_iff_exists']
  constructor
  · intro hk
    obtain ⟨⟨pos, k, v⟩, hmem, rfl⟩ := List.mem_map.mp hk
    exact ⟨v, (hi.visits.all k v).mp ⟨pos, hmem⟩⟩
  · rintro ⟨v, hv⟩
    obtain ⟨pos, hmem⟩ := (hi.visits.all key v).mpr hv
    exact List.mem_map.mpr ⟨_, hmem, rfl⟩

/-- `hto_rehash` that gets a table. -/
theorem HtoInv.rehash (hi : HtoInv sc ht m) (hp : percent ≠ 0)
    (hr : rehashTable ht percent malloc = some newHt) :
    ∃ t, htoRehash sc (some ht) percent malloc = (some t, some t) ∧
      HtoInv sc t (kept m (lostKeys sc ht newHt.size)) ∧ t.type = ht.type ∧
      t.size = newHt.size ∧ NoFreed t := by
  obtain ⟨hrep, htype, hempty⟩ := rehashTable_eq_some hp hr
  have hinv : HtoInv sc newHt fun _ => none := htoInv_empty hrep.prime.pos hempty
  have hfree : NoFreed newHt := by
    intro h
    rw [hempty]
    simp
  have hshape : SameShape { ht with size := newHt.size } newHt := ⟨htype, rfl⟩
  have htaken : Taken newHt [] := by
    intro h _
    simp [hempty]
  have hmem : ∀ e ∈ (htoForeach ht).map Prod.snd, m e.1 = some e.2 := by
    intro e he
    obtain ⟨⟨pos, k, v⟩, hmem, rfl⟩ := List.mem_map.mp he
    exact (hi.visits.all k v).mp ⟨pos, hmem⟩
  have hfits : ∀ e ∈ (htoForeach ht).map Prod.snd, e.1.Fits newHt.type := by
    intro e he
    obtain ⟨⟨pos, k, v⟩, hmem, rfl⟩ := List.mem_map.mp he
    rw [htype]
    exact hi.fits pos k v (mem_htoForeach.mp hmem).2
  have hkeys : ((htoForeach ht).map Prod.snd).map Prod.fst = ht.keys := by
    rw [List.map_map]
    rfl
  have hnd : (((htoForeach ht).map Prod.snd).map Prod.fst).Nodup := by
    rw [hkeys]
    exact hi.visits.once
  obtain ⟨hfinal, hsame, hfree'⟩ := hinv.insert_all (M := m) ((htoForeach ht).map Prod.snd) hfree
    htaken hfits hmem (fun _ _ => rfl) hnd rfl hshape.hash
  refine ⟨(List.range ht.size).foldl (reinsert sc ht) newHt, ?_, ?_, ?_, ?_, ?_⟩
  · unfold htoRehash
    simp only [hp, if_false, hr]
  · rw [foldl_reinsert]
    have hmap : placed m (fun _ => none) (((htoForeach ht).map Prod.snd).map Prod.fst)
        (lost (hash sc { ht with size := newHt.size }) newHt.size
          (((htoForeach ht).map Prod.snd).map Prod.fst) []) =
        kept m (lostKeys sc ht newHt.size) := by
      rw [hkeys]
      funext k
      unfold placed kept lostKeys
      by_cases hk : k ∈ ht.keys
      · by_cases hl : k ∈ lost (hash sc { ht with size := newHt.size }) newHt.size ht.keys []
        · rw [if_neg (fun h => h.2 hl), if_pos hl]
        · rw [if_pos ⟨hk, hl⟩, if_neg hl]
      · have hnone : m k = none := by
          by_contra hne
          exact hk ((mem_keys hi).mpr hne)
        rw [if_neg (fun h => hk h.1), hnone, ite_self]
    rw [← hmap]
    exact hfinal
  · rw [foldl_reinsert, hsame.type, htype]
  · rw [foldl_reinsert, hsame.size]
  · rw [foldl_reinsert]
    exact hfree'

/-! ## The keys that are asked for -/

/-- The keys that `hto_get` may be asked for: in a table of pointers also those that mark
slots. -/
def Key.Asked : KeyType → Key → Prop
  | .string, .str _ => True
  | .pointer, .ptr _ | .pointer, .null | .pointer, .keyFreed => True
  | _, _ => False

/-- No search finds a mark. -/
theorem HtoInv.get_mark (hi : HtoInv sc ht m) (htype : ht.type = .pointer)
    (hkey : key = .null ∨ key = .keyFreed) : (htoGet sc ht key).1 = 0 := by
  unfold htoGet
  refine foreachProbe_rule (fun _ _ => True) (fun r : BitVec 32 × Hto => r.1 = 0) trivial ?_
    (fun _ _ => rfl)
  intro n slot hn _
  unfold getBody
  by_cases hf : (ht.bucket (hash sc ht key n)).key = .keyFreed
  · simp only [hf, if_true]
  by_cases h0 : (ht.bucket (hash sc ht key n)).key = .null
  · simp only [h0, reduceCtorEq, if_true, if_false]
  have hlive := slots_live h0 hf
  have hfits := hi.fits _ _ _ hlive
  have hne : keycmp ht key (ht.bucket (hash sc ht key n)).key ≠ 0 := by
    rw [htype] at hfits
    unfold keycmp
    rw [htype]
    cases hcur : (ht.bucket (hash sc ht key n)).key with
    | ptr p =>
      intro hsub
      have haddr : key.addr = p.addr := by
        have hadd := congrArg (· + p.addr) hsub
        simpa [Key.addr] using hadd
      rcases hkey with rfl | rfl
      · exact p.ne_null haddr.symm
      · exact p.ne_freed haddr.symm
    | null | keyFreed | str => rw [hcur] at hfits; exact hfits.elim
  simp only [hf, h0, hne, if_false]

/-- `hto_get` of every key is the map's. -/
theorem HtoInv.get_asked (hi : HtoInv sc ht m) (hk : key.Asked ht.type) :
    (htoGet sc ht key).1 = (m key).getD 0 := by
  by_cases hfits : key.Fits ht.type
  · exact (hi.get hfits).1
  · have hnone : m key = none := by
      by_contra hne
      obtain ⟨v, hv⟩ := Option.ne_none_iff_exists'.mp hne
      obtain ⟨h, -, hlive⟩ := (hi.maps key v).mpr hv
      exact hfits (hi.fits h key v hlive)
    rw [hnone]
    cases htype : ht.type with
    | string =>
      rw [htype] at hk hfits
      cases key <;> first | exact hk.elim | exact absurd trivial hfits
    | pointer =>
      refine hi.get_mark htype ?_
      rw [htype] at hk hfits
      cases key with
      | null => exact .inl rfl
      | keyFreed => exact .inr rfl
      | ptr p => exact absurd trivial hfits
      | str s => exact hk.elim

theorem Key.Fits.asked {type : KeyType} (hk : key.Fits type) : key.Asked type := by
  cases type <;> cases key <;> first | exact hk.elim | trivial

end

/-! ## Reachable tables -/

/-- The tables of `hto_create`, made in their block, after calls with keys of their
type. -/
inductive Reached (signedChar : Bool) : Hto → Prop
  | create {nb type : Nat} {ht : Hto} : 2 ≤ nb → 12 + largestPrime nb * 8 < 2 ^ 32 →
      htoCreate nb type = some ht → Reached signedChar ht
  | set {ht : Hto} {key : Key} (val : BitVec 32) : Reached signedChar ht → key.Fits ht.type →
      Reached signedChar (htoSet signedChar ht key val).2
  | get {ht : Hto} {key : Key} : Reached signedChar ht → key.Fits ht.type →
      Reached signedChar (htoGet signedChar ht key).2
  | del {ht ht' : Hto} {key : Key} {v : BitVec 32} (free : Key → Bool) : Reached signedChar ht →
      key.Fits ht.type → htoDel signedChar free ht key = some (v, ht') → Reached signedChar ht'
  | rehash {ht ht' : Hto} (percent : BitVec 32) (malloc : Bool) : Reached signedChar ht →
      (htoRehash signedChar (some ht) percent malloc).2 = some ht' → Reached signedChar ht'

section
variable {sc malloc : Bool} {ht ht' : Hto} {percent : BitVec 32} {n : Nat}
  {m : Key → Option (BitVec 32)}

/-- A table that can be reached is a finite map. -/
theorem Reached.htoInv (hr : Reached sc ht) : ∃ m, HtoInv sc ht m := by
  induction hr with
  | @create nb type ht h2 hfit hc =>
    obtain ⟨-, hsize, hbytes, hempty⟩ := htoCreate_spec hc
    have hprime := (largestPrime_spec h2).1
    unfold Own.createBytes at hbytes
    rw [Nat.mod_eq_of_lt hfit] at hbytes
    rw [Nat.mod_eq_of_lt (by omega)] at hsize
    exact ⟨_, htoInv_empty (hsize ▸ hprime.pos) hempty⟩
  | set val _ hk ih =>
    obtain ⟨m, hi⟩ := ih
    exact ⟨_, (hi.set hk val).1⟩
  | get _ hk ih =>
    obtain ⟨m, hi⟩ := ih
    exact ⟨m, (hi.get hk).2.1⟩
  | del free _ hk hdel ih =>
    obtain ⟨m, hi⟩ := ih
    have hspec := hi.del hk free
    rw [hdel] at hspec
    exact ⟨_, hspec.2.1⟩
  | @rehash ht ht' percent malloc _ hre ih =>
    obtain ⟨m, hi⟩ := ih
    by_cases hp : percent = 0
    · simp only [htoRehash, hp, if_true, Option.some.injEq] at hre
      exact ⟨m, hre ▸ hi⟩
    cases htab : rehashTable ht percent malloc with
    | none =>
      simp only [htoRehash, hp, if_false, htab, Option.some.injEq] at hre
      exact ⟨m, hre ▸ hi⟩
    | some newHt =>
      obtain ⟨t, heq, hinv, -⟩ := hi.rehash hp htab
      rw [heq, Option.some.injEq] at hre
      exact ⟨_, hre ▸ hinv⟩

/-! ## What `hto_rehash` keeps -/

/-- `hto_rehash` fails and leaves the table, or `hto_get` of every key is what it was. -/
def RehashKeeps (signedChar : Bool) (ht : Hto) (percent : BitVec 32) (malloc : Bool) : Prop :=
  match htoRehash signedChar (some ht) percent malloc with
  | (none, pht) => pht = some ht
  | (some newHt, pht) => pht = some newHt ∧
      ∀ key, key.Asked ht.type → (htoGet signedChar newHt key).1 = (htoGet signedChar ht key).1

/-- Each live key whose value is not `NULL` finds a place among `n` slots, when the live
keys are put in the order of their slots. -/
def KeepsAll (signedChar : Bool) (ht : Hto) (n : Nat) : Prop :=
  ∀ h, h < ht.size → (ht.bucket h).key ≠ .null → (ht.bucket h).key ≠ .keyFreed →
    (ht.bucket h).val ≠ 0 → (ht.bucket h).key ∉ lostKeys signedChar ht n

/-- The lost keys in terms of the map. -/
theorem HtoInv.lost_iff (hi : HtoInv sc ht m) (P : Key → Prop) :
    (∀ h, h < ht.size → (ht.bucket h).key ≠ .null → (ht.bucket h).key ≠ .keyFreed →
      P (ht.bucket h).key → (ht.bucket h).val ≠ 0 → (ht.bucket h).key ∉ lostKeys sc ht n) ↔
    ∀ k ∈ lostKeys sc ht n, P k → (m k).getD 0 = 0 := by
  constructor
  · intro hk key hl hP
    by_contra hne
    obtain ⟨v, hv⟩ := Option.ne_none_iff_exists'.mp
      ((mem_keys hi).mp (lost_subset _ _ key hl))
    obtain ⟨h, hlt, hlive⟩ := (hi.maps key v).mpr hv
    obtain ⟨hkey, h0, hf, hval⟩ := slots_eq_live.mp hlive
    rw [hv, Option.getD_some] at hne
    refine hk h hlt (hkey ▸ h0) (hkey ▸ hf) (hkey ▸ hP) (hval ▸ hne) ?_
    rw [hkey]
    exact hl
  · intro hl h hlt h0 hf hP hval hmem
    have hv := hi.maps.found hlt (slots_live h0 hf)
    have hzero := hl _ hmem hP
    rw [hv, Option.getD_some] at hzero
    exact hval hzero

theorem HtoInv.keepsAll_iff (hi : HtoInv sc ht m) :
    KeepsAll sc ht n ↔ ∀ key ∈ lostKeys sc ht n, (m key).getD 0 = 0 := by
  have hlost := hi.lost_iff (n := n) fun _ => True
  simp only [true_implies] at hlost
  exact hlost

/-- When no sum of `hash` passes 2³² and the new table has as many slots as there are live
keys, all of them are kept. -/
theorem keepsAll_of_noWrap (hp : n.Prime) (h3 : 3 ≤ n) (hn : n < 2 ^ 30)
    (hwrap : ∀ key ∈ ht.keys, NoWrap sc { ht with size := n } key) (hroom : ht.keys.length ≤ n) :
    KeepsAll sc ht n := by
  have hlost : lostKeys sc ht n = [] := by
    refine lost_eq_nil (fun key hk => ?_) (by simpa using hroom)
    exact (hwrap key hk).covers hp h3 hn
  intro h _ _ _ _ hmem
  rw [hlost] at hmem
  exact absurd hmem (by simp)

/-- `hto_rehash` preserves the map exactly when it gets no table, or each live key whose
value is not `NULL` finds a place in the one it gets. -/
theorem htoRehash_keeps_iff (hr : Reached sc ht) (percent : BitVec 32) (malloc : Bool) :
    RehashKeeps sc ht percent malloc ↔
      ∀ n, Replaced ht percent malloc n → KeepsAll sc ht n := by
  obtain ⟨m, hi⟩ := hr.htoInv
  have hfails : (∀ n, ¬ Replaced ht percent malloc n) →
      htoRehash sc (some ht) percent malloc = (none, some ht) := by
    intro hno
    unfold htoRehash
    by_cases hp : percent = 0
    · simp only [hp, if_true]
    simp only [hp, if_false]
    cases htab : rehashTable ht percent malloc with
    | none => rfl
    | some newHt => exact absurd (rehashTable_eq_some hp htab).1 (hno _)
  by_cases hrep : ∃ n, Replaced ht percent malloc n
  · obtain ⟨n, hrep⟩ := hrep
    obtain ⟨newHt, htab, rfl⟩ := hrep.exists_table
    obtain ⟨t, heq, hinv, htype, -⟩ := hi.rehash hrep.nonzero htab
    have hall : (∀ n, Replaced ht percent malloc n → KeepsAll sc ht n) ↔
        KeepsAll sc ht newHt.size := by
      constructor
      · exact fun h => h _ hrep
      · intro h n' hrep'
        rw [hrep'.size, ← hrep.size]
        exact h
    rw [hall, hi.keepsAll_iff]
    unfold RehashKeeps
    simp only [heq, true_and]
    constructor
    · intro hkeeps key hl
      have hk : key.Asked ht.type := by
        obtain ⟨v, hv⟩ := Option.ne_none_iff_exists'.mp
          ((mem_keys hi).mp (lost_subset _ _ key hl))
        obtain ⟨h, -, hlive⟩ := (hi.maps key v).mpr hv
        exact (hi.fits h key v hlive).asked
      have hget := hkeeps key hk
      rw [hinv.get_asked (htype ▸ hk), hi.get_asked hk, kept, if_pos hl] at hget
      exact hget.symm
    · intro hl key hk
      rw [hinv.get_asked (htype ▸ hk), hi.get_asked hk, kept]
      by_cases hmem : key ∈ lostKeys sc ht newHt.size
      · rw [if_pos hmem, hl key hmem]
        rfl
      · rw [if_neg hmem]
  · have hno : ∀ n, ¬ Replaced ht percent malloc n := fun n hrep' => hrep ⟨n, hrep'⟩
    unfold RehashKeeps
    rw [hfails hno]
    exact iff_of_true rfl fun n hrep' => absurd hrep' (hno n)

end

/-! ## A table that is too small -/

/-- A small pointer. -/
def smallPtr (i : Fin 8) : Key :=
  .ptr ⟨BitVec.ofNat 32 (i.val + 1), by revert i; decide, by revert i; decide⟩

/-- The pointers 1 to 4 are given their own numbers. -/
def fourPtrs (ht : Hto) : Hto :=
  [0, 1, 2, 3].foldl (fun ht (i : Fin 8) =>
    (htoSet false ht (smallPtr i) (BitVec.ofNat 32 (i.val + 1))).2) ht

theorem reached_fourPtrs {nb : Nat} {ht : Hto} (h2 : 2 ≤ nb)
    (hfit : 12 + largestPrime nb * 8 < 2 ^ 32) (hc : htoCreate nb 1 = some ht) :
    Reached false (fourPtrs ht) := by
  have hstart : Reached false ht := .create h2 hfit hc
  have htype : ht.type = .pointer := (htoCreate_spec hc).1
  have hall : ∀ (is : List (Fin 8)) (t : Hto), Reached false t → t.type = .pointer →
      Reached false (is.foldl (fun ht (i : Fin 8) =>
        (htoSet false ht (smallPtr i) (BitVec.ofNat 32 (i.val + 1))).2) t) := by
    intro is
    induction is with
    | nil => exact fun t ht _ => ht
    | cons i is ih =>
      intro t ht htype
      obtain ⟨m, hi⟩ := ht.htoInv
      have hk : (smallPtr i).Fits t.type := by
        rw [htype]
        trivial
      exact ih _ (.set _ ht hk) ((hi.set hk _).2.type.trans htype)
  exact hall _ ht hstart htype

/-- The table of five slots with four pointers is shrunk to two slots: the pointers 3 and
4 are lost. -/
theorem hto_rehash_loses :
    ∃ ht, htoCreate 5 1 = some ht ∧ Reached false (fourPtrs ht) ∧
      (htoGet false (fourPtrs ht) (smallPtr 2)).1 = 3 ∧
      ((htoRehash false (some (fourPtrs ht)) 50 true).1.map fun t =>
        (htoGet false t (smallPtr 2)).1) = some 0 ∧
      ¬ RehashKeeps false (fourPtrs ht) 50 true := by
  obtain ⟨ht, hc⟩ : ∃ ht, htoCreate 5 1 = some ht := ⟨_, rfl⟩
  have hall : ((htoCreate 5 1).map fun ht => ((htoGet false (fourPtrs ht) (smallPtr 2)).1,
      (fourPtrs ht).type, (htoRehash false (some (fourPtrs ht)) 50 true).1.map fun t =>
        (htoGet false t (smallPtr 2)).1)) = some (3, .pointer, some 0) := by
    decide +kernel
  rw [hc, Option.map_some, Option.some.injEq] at hall
  simp only [Prod.mk.injEq] at hall
  obtain ⟨hbefore, htype, hafter⟩ := hall
  refine ⟨ht, hc, reached_fourPtrs (by decide) (by decide) hc, hbefore, hafter, fun hkeeps => ?_⟩
  obtain ⟨t, hret, hget⟩ := Option.map_eq_some_iff.mp hafter
  have hpair : htoRehash false (some (fourPtrs ht)) 50 true =
      (some t, (htoRehash false (some (fourPtrs ht)) 50 true).2) := Prod.ext hret rfl
  unfold RehashKeeps at hkeeps
  rw [hpair] at hkeeps
  have hsame := hkeeps.2 (smallPtr 2) (by rw [htype]; trivial)
  rw [hget, hbefore] at hsame
  exact absurd hsame (by decide)

/-- The same table is grown to seven slots: no pointer is lost. -/
theorem htoRehash_keeps_four :
    ∃ ht, htoCreate 5 1 = some ht ∧ RehashKeeps false (fourPtrs ht) 200 true := by
  obtain ⟨ht, hc⟩ : ∃ ht, htoCreate 5 1 = some ht := ⟨_, rfl⟩
  have hall : ((htoCreate 5 1).map fun ht => (rehashSize (fourPtrs ht) 200,
      (lostKeys false (fourPtrs ht) 7).length)) = some (10, 0) := by
    decide +kernel
  rw [hc, Option.map_some, Option.some.injEq] at hall
  obtain ⟨hsize, hlost⟩ := Prod.mk.inj hall
  have hr : Reached false (fourPtrs ht) := reached_fourPtrs (by decide) (by decide) hc
  refine ⟨ht, hc, (htoRehash_keeps_iff hr 200 true).mpr fun n hrep => ?_⟩
  have hn : n = 7 := by
    rw [hrep.size, hsize]
    decide
  intro h _ _ _ _ hmem
  rw [hn, List.eq_nil_of_length_eq_zero hlost] at hmem
  exact absurd hmem (by simp)

end Ko6.Common
