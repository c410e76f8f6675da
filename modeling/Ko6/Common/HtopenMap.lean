import Ko6.Common.Htopen
import Ko6.Kernel.SlabRuns

set_option autoImplicit false

/-!
# Common: the hash table is a finite map

The slots of a table are those of an open addressing table whose probe sequence of a
key is `hash`.  Every change that `hto_get`, `hto_set` and `hto_del` make is a `put`
or an `erase` of that library, whatever the relocations; so a table represents a
map, and the calls are the operations of the map.

The one thing outside the map is `FREE`: `hto_del` applies it to the key it has
found, also when this is a pointer that the table has not allocated.
-/

namespace Ko6.Common

open Ko6.Lib Ko6.Lib.OpenTable

/-! ## Comparing keys -/

theorem keycmp_eq_zero {ht : Hto} {k1 k2 : Key} (h1 : k1.Fits ht.type) (h2 : k2.Fits ht.type) :
    keycmp ht k1 k2 = 0 ↔ k1 = k2 := by
  unfold keycmp
  cases htype : ht.type with
  | string =>
    rw [htype] at h1 h2
    cases k1 <;> simp only [Key.Fits] at h1
    cases k2 <;> simp only [Key.Fits] at h2
    rename_i s1 s2
    obtain ⟨c1, hc1⟩ := s1
    obtain ⟨c2, hc2⟩ := s2
    have hcmp := strcmp_eq_zero hc1 hc2
    have hbound := strcmp_bounds c1 c2
    simp only [Key.chars, Key.str.injEq, CStr.mk.injEq, ← hcmp]
    constructor
    · intro h0
      have hint := congrArg BitVec.toInt h0
      rw [BitVec.toInt_ofInt, Int.bmod_eq_of_le (by omega) (by omega)] at hint
      exact hint
    · intro h0
      rw [h0]
      rfl
  | pointer =>
    rw [htype] at h1 h2
    cases k1 <;> simp only [Key.Fits] at h1
    cases k2 <;> simp only [Key.Fits] at h2
    rename_i p1 p2
    obtain ⟨a1, _, _⟩ := p1
    obtain ⟨a2, _, _⟩ := p2
    simp only [Key.addr, Key.ptr.injEq, Ptr.mk.injEq]
    constructor
    · intro h0
      have hsub := congrArg (· + a2) h0
      simpa using hsub
    · rintro rfl
      exact BitVec.sub_self _

/-! ## The slots -/

/-- The slots of the table. -/
def Hto.slots (ht : Hto) (h : Nat) : Slot Key (BitVec 32) :=
  match (ht.bucket h).key with
  | .null => .empty
  | .keyFreed => .freed
  | key => .live key (ht.bucket h).val

section
variable {ht : Hto} {h g : Nat} {key k : Key} {val v w : BitVec 32} {t : KeyType}

theorem Key.Fits.ne_null (hk : key.Fits t) : key ≠ .null := by
  rintro rfl
  cases t <;> exact hk

theorem Key.Fits.ne_keyFreed (hk : key.Fits t) : key ≠ .keyFreed := by
  rintro rfl
  cases t <;> exact hk

theorem slots_eq_empty : ht.slots h = .empty ↔ (ht.bucket h).key = .null := by
  unfold Hto.slots
  cases (ht.bucket h).key <;> simp

theorem slots_eq_freed : ht.slots h = .freed ↔ (ht.bucket h).key = .keyFreed := by
  unfold Hto.slots
  cases (ht.bucket h).key <;> simp

theorem slots_eq_live : ht.slots h = .live k v ↔
    (ht.bucket h).key = k ∧ k ≠ .null ∧ k ≠ .keyFreed ∧ (ht.bucket h).val = v := by
  unfold Hto.slots
  cases hkey : (ht.bucket h).key <;> simp
  all_goals grind

/-- A slot that is neither empty nor freed. -/
theorem slots_live (h0 : (ht.bucket h).key ≠ .null) (hf : (ht.bucket h).key ≠ .keyFreed) :
    ht.slots h = .live (ht.bucket h).key (ht.bucket h).val :=
  slots_eq_live.mpr ⟨rfl, h0, hf, rfl⟩

theorem slots_congr {ht' : Hto} (hb : ht'.bucket h = ht.bucket h) : ht'.slots h = ht.slots h := by
  unfold Hto.slots
  rw [hb]

/-- A key and a value are stored in a slot. -/
theorem slots_insert (hk : key.Fits t) (honly : ∀ j, j ≠ h → ∀ w, ht.slots j ≠ .live key w) :
    ((ht.setKey h key).setVal h val).slots = put ht.slots h key val := by
  funext j
  by_cases hj : j = h
  · rw [hj, put_self, slots_eq_live]
    simp [Hto.setKey, Hto.setVal, hk.ne_null, hk.ne_keyFreed]
  · rw [put_of_ne hj, erase_of_absent (honly j hj)]
    refine slots_congr ?_
    simp [Hto.setKey, Hto.setVal, hj]

/-- The value of a key is changed. -/
theorem slots_setVal (hlive : ht.slots h = .live key w)
    (honly : ∀ j, j ≠ h → ∀ w, ht.slots j ≠ .live key w) :
    (ht.setVal h val).slots = put ht.slots h key val := by
  obtain ⟨hkey, h0, hf, -⟩ := slots_eq_live.mp hlive
  funext j
  by_cases hj : j = h
  · rw [hj, put_self, slots_eq_live]
    simp [Hto.setVal, hkey, h0, hf]
  · rw [put_of_ne hj, erase_of_absent (honly j hj)]
    refine slots_congr ?_
    simp [Hto.setVal, hj]

/-- A key is moved to a freed slot. -/
theorem slots_move (hlive : ht.slots h = .live key w) (hfreed : ht.slots g = .freed)
    (honly : ∀ j, j ≠ h → ∀ w, ht.slots j ≠ .live key w) :
    (((ht.setKey h .keyFreed).setKey g key).setVal g val).slots = put ht.slots g key val := by
  obtain ⟨-, h0, hf, -⟩ := slots_eq_live.mp hlive
  have hgh : g ≠ h := by
    rintro rfl
    rw [hlive] at hfreed
    exact absurd hfreed (by simp)
  funext j
  by_cases hjg : j = g
  · rw [hjg, put_self, slots_eq_live]
    simp [Hto.setKey, Hto.setVal, h0, hf]
  · rw [put_of_ne hjg]
    by_cases hjh : j = h
    · rw [hjh, erase, hlive]
      simp only [if_true]
      rw [slots_eq_freed]
      simp [Hto.setKey, Hto.setVal, Ne.symm hgh]
    · rw [erase_of_absent (honly j hjh)]
      refine slots_congr ?_
      simp [Hto.setKey, Hto.setVal, hjg, hjh]

/-- The slot of a key is freed. -/
theorem slots_delete (hlive : ht.slots h = .live key w)
    (honly : ∀ j, j ≠ h → ∀ w, ht.slots j ≠ .live key w) :
    ((ht.setKey h .keyFreed).setVal h val).slots = erase ht.slots key := by
  funext j
  by_cases hj : j = h
  · rw [hj, erase, hlive]
    simp only [if_true]
    rw [slots_eq_freed]
    simp [Hto.setKey, Hto.setVal]
  · rw [erase_of_absent (honly j hj)]
    refine slots_congr ?_
    simp [Hto.setKey, Hto.setVal, hj]

end

/-! ## The invariant -/

/-- The table `ht` is the map `m`. -/
structure HtoInv (signedChar : Bool) (ht : Hto) (m : Key → Option (BitVec 32)) : Prop where
  size_pos : 0 < ht.size
  wf : WF ht.size (hash signedChar ht) ht.slots
  maps : Maps ht.size ht.slots m
  fits : ∀ h k v, ht.slots h = .live k v → k.Fits ht.type
  outside : ∀ h, ht.size ≤ h → ht.slots h = .empty

section
variable {sc : Bool} {ht ht' : Hto} {h g n : Nat} {key k : Key} {val v w : BitVec 32}
  {m : Key → Option (BitVec 32)}

theorem hash_lt (hpos : 0 < ht.size) : hash sc ht key n < ht.size := Nat.mod_lt _ hpos

/-- A live slot is in the table. -/
theorem HtoInv.live_lt (hi : HtoInv sc ht m) (hlive : ht.slots h = .live k v) : h < ht.size := by
  by_contra hge
  rw [hi.outside h (Nat.not_lt.mp hge)] at hlive
  exact absurd hlive (by simp)

/-- The other slots do not hold the key. -/
theorem HtoInv.only (hi : HtoInv sc ht m) (hlive : ht.slots h = .live k v) :
    ∀ j, j ≠ h → ∀ w, ht.slots j ≠ .live k w := fun j hj w hw =>
  hj (hi.wf.unique j h k w v (hi.live_lt hw) (hi.live_lt hlive) hw hlive)

/-- No slot holds a key that is not in the map. -/
theorem HtoInv.absent_slots (hi : HtoInv sc ht m) (habsent : m k = none) (j : Nat)
    (w : BitVec 32) : ht.slots j ≠ .live k w := by
  intro hj
  rw [hi.maps.found (hi.live_lt hj) hj] at habsent
  exact absurd habsent (by simp)

/-- The fields that no call changes. -/
structure SameShape (ht ht' : Hto) : Prop where
  type : ht'.type = ht.type
  size : ht'.size = ht.size

theorem SameShape.hash (hs : SameShape ht ht') : hash sc ht' = hash sc ht := by
  funext key n
  unfold Common.hash
  rw [hs.type, hs.size]

theorem HtoInv.put (hi : HtoInv sc ht m) (hs : SameShape ht ht') (hk : key.Fits ht.type)
    (hn : n < ht.size) (hg : hash sc ht key n = g)
    (hearly : ∀ u, u < n → ht.slots (hash sc ht key u) ≠ .empty)
    (hfit : ∀ k' v', ht.slots g = .live k' v' → k' = key)
    (hslots : ht'.slots = OpenTable.put ht.slots g key val) :
    HtoInv sc ht' (Function.update m key (some val)) := by
  have hglt : g < ht.size := hg ▸ hash_lt hi.size_pos
  constructor
  · rw [hs.size]
    exact hi.size_pos
  · rw [hs.size, hs.hash, hslots]
    exact hi.wf.put hn hg hearly
  · rw [hs.size, hslots]
    exact hi.maps.put hglt hfit
  · intro h k v hlive
    rw [hs.type]
    rw [hslots] at hlive
    by_cases hh : h = g
    · rw [hh, put_self, Slot.live.injEq] at hlive
      exact hlive.1 ▸ hk
    · rw [put_of_ne hh] at hlive
      exact hi.fits h k v (erase_eq_live.mp hlive).2
  · intro h hle
    rw [hs.size] at hle
    rw [hslots, put_of_ne (by omega), erase_eq_empty]
    exact hi.outside h hle

theorem HtoInv.erase (hi : HtoInv sc ht m) (hs : SameShape ht ht')
    (hslots : ht'.slots = OpenTable.erase ht.slots key) :
    HtoInv sc ht' (Function.update m key none) := by
  constructor
  · rw [hs.size]
    exact hi.size_pos
  · rw [hs.size, hs.hash, hslots]
    exact hi.wf.erase key
  · rw [hs.size, hslots]
    exact hi.maps.erase key
  · intro h k v hlive
    rw [hs.type]
    rw [hslots] at hlive
    exact hi.fits h k v (erase_eq_live.mp hlive).2
  · intro h hle
    rw [hs.size] at hle
    rw [hslots, erase_eq_empty]
    exact hi.outside h hle

/-! ## Searching -/

/-- The rule of the loop: what holds before each try and what holds of the value it
returns. -/
theorem foreachProbe_rule {σ ρ : Type} {probe : Nat → Nat} {body : Nat → Nat → σ → σ ⊕ ρ}
    {done : σ → ρ} {size : Nat} {s : σ} (I : Nat → σ → Prop) (Q : ρ → Prop) (hI : I 0 s)
    (hstep : ∀ n s, n < size → I n s →
      match body n (probe n) s with
      | .inl s' => I (n + 1) s'
      | .inr r => Q r)
    (hdone : ∀ s, I size s → Q (done s)) : Q (foreachProbe probe body done size 0 s) := by
  have hloop : ∀ fuel n s, n + fuel = size → I n s →
      Q (foreachProbe probe body done fuel n s) := by
    intro fuel
    induction fuel with
    | zero =>
      intro n s hn hI
      unfold foreachProbe
      exact hdone s ((Nat.add_zero n ▸ hn) ▸ hI)
    | succ fuel ih =>
      intro n s hn hI
      unfold foreachProbe
      have hbody := hstep n s (by omega) hI
      cases hres : body n (probe n) s with
      | inl s' =>
        rw [hres] at hbody
        exact ih (n + 1) s' (by omega) hbody
      | inr r =>
        rw [hres] at hbody
        exact hbody
  exact hloop size 0 s (Nat.zero_add size) hI

/-- `n` tries have not met the key nor an empty slot; `slot` is a freed slot of them. -/
structure Missed (sc : Bool) (ht : Hto) (key : Key) (n : Nat) (slot : Option Nat) : Prop where
  nonempty : ∀ u, u < n → ht.slots (hash sc ht key u) ≠ .empty
  other : ∀ u, u < n → ∀ v, ht.slots (hash sc ht key u) ≠ .live key v
  freed : ∀ g, slot = some g → ∃ u, u < n ∧ hash sc ht key u = g ∧ ht.slots g = .freed

theorem missed_zero : Missed sc ht key 0 none := ⟨by simp, by simp, by simp⟩

theorem Missed.succ {slot slot' : Option Nat} (hm : Missed sc ht key n slot)
    (hne : ht.slots (hash sc ht key n) ≠ .empty)
    (hother : ∀ v, ht.slots (hash sc ht key n) ≠ .live key v)
    (hslot : ∀ g, slot' = some g → slot = some g ∨
      hash sc ht key n = g ∧ ht.slots g = .freed) : Missed sc ht key (n + 1) slot' := by
  constructor
  · intro u hu
    rcases Nat.lt_succ_iff_lt_or_eq.mp hu with hu | rfl
    · exact hm.nonempty u hu
    · exact hne
  · intro u hu
    rcases Nat.lt_succ_iff_lt_or_eq.mp hu with hu | rfl
    · exact hm.other u hu
    · exact hother
  · intro g hg
    rcases hslot g hg with hg | ⟨hh, hfreed⟩
    · obtain ⟨u, hu, hp, hfreed⟩ := hm.freed g hg
      exact ⟨u, by omega, hp, hfreed⟩
    · exact ⟨n, by omega, hh, hfreed⟩

/-- The try meets a freed slot. -/
theorem Missed.step_freed {slot : Option Nat} (hm : Missed sc ht key n slot)
    (hfreed : (ht.bucket (hash sc ht key n)).key = .keyFreed) :
    Missed sc ht key (n + 1) (if slot.isNone then some (hash sc ht key n) else slot) := by
  have hslot := slots_eq_freed.mpr hfreed
  refine hm.succ (by simp [hslot]) (by simp [hslot]) ?_
  intro g hg
  split at hg
  · rw [Option.some.injEq] at hg
    exact .inr ⟨hg, hg ▸ hslot⟩
  · exact .inl hg

/-- The try meets another key. -/
theorem Missed.step_other {slot : Option Nat} (hi : HtoInv sc ht m) (hk : key.Fits ht.type)
    (hm : Missed sc ht key n slot)
    (hf : (ht.bucket (hash sc ht key n)).key ≠ .keyFreed)
    (h0 : (ht.bucket (hash sc ht key n)).key ≠ .null)
    (hne : keycmp ht key (ht.bucket (hash sc ht key n)).key ≠ 0) :
    Missed sc ht key (n + 1) slot := by
  have hlive := slots_live h0 hf
  rw [ne_eq, keycmp_eq_zero hk (hi.fits _ _ _ hlive)] at hne
  refine hm.succ (by simp [hlive]) (fun v hv => ?_) fun g hg => .inl hg
  rw [hlive, Slot.live.injEq] at hv
  exact hne hv.1.symm

/-- The try meets the key. -/
theorem HtoInv.found (hi : HtoInv sc ht m) (hk : key.Fits ht.type)
    (hf : (ht.bucket h).key ≠ .keyFreed) (h0 : (ht.bucket h).key ≠ .null)
    (he : keycmp ht key (ht.bucket h).key = 0) (hh : h < ht.size) :
    (ht.bucket h).key = key ∧ ht.slots h = .live key (ht.bucket h).val ∧
      m key = some (ht.bucket h).val := by
  have hlive := slots_live h0 hf
  have heq := (keycmp_eq_zero hk (hi.fits _ _ _ hlive)).mp he
  rw [← heq] at hlive
  exact ⟨heq.symm, hlive, hi.maps.found hh hlive⟩

/-- A key that is in the table already is put at a freed slot of the search. -/
theorem HtoInv.move (hi : HtoInv sc ht m) (val : BitVec 32) (hk : key.Fits ht.type)
    {slot : Option Nat}
    (hm : Missed sc ht key n slot) (hn : n < ht.size) (hslot : slot = some g)
    (hlive : ht.slots h = .live key w) (hkey : k = key) :
    HtoInv sc (((ht.setKey h .keyFreed).setKey g k).setVal g val)
      (Function.update m key (some val)) := by
  obtain ⟨u, hu, hp, hfreed⟩ := hm.freed g hslot
  subst hkey
  refine hi.put ⟨rfl, rfl⟩ hk (Nat.lt_trans hu hn) hp
    (fun u' hu' => hm.nonempty u' (Nat.lt_trans hu' hu)) (by simp [hfreed]) ?_
  exact slots_move hlive hfreed (hi.only hlive)

/-- A new key is put at a freed slot of the search. -/
theorem HtoInv.reuse (hi : HtoInv sc ht m) (hk : key.Fits ht.type) {slot : Option Nat}
    (hm : Missed sc ht key n slot) (hn : n ≤ ht.size) (hslot : slot = some g)
    (habsent : m key = none) (f : BitVec 32) :
    HtoInv sc ((Hto.setKey { ht with freed := f } g key).setVal g val)
      (Function.update m key (some val)) := by
  obtain ⟨u, hu, hp, hfreed⟩ := hm.freed g hslot
  refine hi.put ⟨rfl, rfl⟩ hk (Nat.lt_of_lt_of_le hu hn) hp
    (fun u' hu' => hm.nonempty u' (Nat.lt_trans hu' hu)) (by simp [hfreed]) ?_
  have hslots : ((Hto.setKey { ht with freed := f } g key).setVal g val).slots =
      OpenTable.put (Hto.slots { ht with freed := f }) g key val :=
    slots_insert hk fun j _ => hi.absent_slots habsent j
  exact hslots

/-! ## The calls -/

/-- `hto_get` returns the value of the key and the table stays the same map. -/
theorem HtoInv.get (hi : HtoInv sc ht m) (hk : key.Fits ht.type) :
    (htoGet sc ht key).1 = (m key).getD 0 ∧ HtoInv sc (htoGet sc ht key).2 m ∧
      SameShape ht (htoGet sc ht key).2 := by
  unfold htoGet
  refine foreachProbe_rule (Missed sc ht key)
    (fun r : BitVec 32 × Hto => r.1 = (m key).getD 0 ∧ HtoInv sc r.2 m ∧ SameShape ht r.2) missed_zero ?_ ?_
  · intro n slot hn hm
    unfold getBody
    by_cases hf : (ht.bucket (hash sc ht key n)).key = .keyFreed
    · simp only [hf, if_true]
      exact hm.step_freed hf
    by_cases h0 : (ht.bucket (hash sc ht key n)).key = .null
    · have habsent := hi.maps.absent hi.wf hm.other (.inr (slots_eq_empty.mpr h0))
      simp only [h0, reduceCtorEq, if_true, if_false]
      exact ⟨by rw [habsent]; rfl, hi, rfl, rfl⟩
    by_cases he : keycmp ht key (ht.bucket (hash sc ht key n)).key = 0
    · obtain ⟨hkey, hlive, hval⟩ := hi.found hk hf h0 he (hash_lt hi.size_pos)
      simp only [hf, h0, he, if_true, if_false]
      cases hslot : slot with
      | none => exact ⟨by rw [hval]; rfl, hi, rfl, rfl⟩
      | some g =>
        have hmove := hi.move (ht.bucket (hash sc ht key n)).val hk hm hn hslot hlive hkey
        rw [← hval, Function.update_eq_self] at hmove
        exact ⟨by rw [hval]; rfl, hmove, rfl, rfl⟩
    · simp only [hf, h0, he, if_false]
      exact hm.step_other hi hk hf h0 he
  · intro slot hm
    have habsent := hi.maps.absent hi.wf hm.other (.inl rfl)
    exact ⟨by rw [habsent]; rfl, hi, rfl, rfl⟩

/-- `hto_set` binds the key if it returns a number of tries, and changes nothing
otherwise. -/
theorem HtoInv.set (hi : HtoInv sc ht m) (hk : key.Fits ht.type) (val : BitVec 32) :
    HtoInv sc (htoSet sc ht key val).2
      (if 0 ≤ (htoSet sc ht key val).1 then Function.update m key (some val) else m) ∧
      SameShape ht (htoSet sc ht key val).2 := by
  unfold htoSet
  rw [if_neg hk.ne_keyFreed]
  refine foreachProbe_rule (fun n (s : Option Nat × Nat) => Missed sc ht key n s.1)
    (fun r : Int × Hto =>
      HtoInv sc r.2 (if 0 ≤ r.1 then Function.update m key (some val) else m) ∧ SameShape ht r.2) missed_zero ?_ ?_
  · rintro n ⟨slot, tryForthisslot⟩ hn hm
    unfold setBody
    by_cases hf : (ht.bucket (hash sc ht key n)).key = .keyFreed
    · have hstep := hm.step_freed hf
      simp only [hf, if_true]
      split <;> rename_i hslot <;> simpa [hslot] using hstep
    by_cases h0 : (ht.bucket (hash sc ht key n)).key = .null
    · have hempty := slots_eq_empty.mpr h0
      have habsent := hi.maps.absent hi.wf hm.other (.inr hempty)
      simp only [h0, reduceCtorEq, if_true, if_false]
      cases hslot : slot with
      | none =>
        refine ⟨?_, rfl, rfl⟩
        rw [if_pos (Int.natCast_nonneg n)]
        refine hi.put ⟨rfl, rfl⟩ hk hn rfl hm.nonempty (by simp [hempty]) ?_
        have hslots : ((Hto.setKey { ht with empty := ht.empty - 1 } (hash sc ht key n)
            key).setVal (hash sc ht key n) val).slots =
            OpenTable.put (Hto.slots { ht with empty := ht.empty - 1 }) (hash sc ht key n) key
              val := slots_insert hk fun j _ => hi.absent_slots habsent j
        exact hslots
      | some g =>
        refine ⟨?_, rfl, rfl⟩
        rw [if_pos (Int.natCast_nonneg tryForthisslot)]
        exact hi.reuse hk hm (Nat.le_of_lt hn) hslot habsent _
    by_cases he : keycmp ht key (ht.bucket (hash sc ht key n)).key = 0
    · obtain ⟨hkey, hlive, hval⟩ := hi.found hk hf h0 he (hash_lt hi.size_pos)
      simp only [hf, h0, he, if_true, if_false]
      cases hslot : slot with
      | none =>
        refine ⟨?_, rfl, rfl⟩
        rw [if_pos (Int.natCast_nonneg n)]
        refine hi.put ⟨rfl, rfl⟩ hk hn rfl hm.nonempty ?_ (slots_setVal hlive (hi.only hlive))
        intro k' v' hk'
        rw [hlive, Slot.live.injEq] at hk'
        exact hk'.1.symm
      | some g =>
        refine ⟨?_, rfl, rfl⟩
        rw [if_pos (Int.natCast_nonneg n)]
        exact hi.move val hk hm hn hslot hlive hkey
    · simp only [hf, h0, he, if_false]
      exact hm.step_other hi hk hf h0 he
  · rintro ⟨slot, tryForthisslot⟩ hm
    have habsent := hi.maps.absent hi.wf hm.other (.inl rfl)
    cases hslot : slot with
    | none =>
      unfold setDone
      exact ⟨by rw [if_neg (show ¬ 0 ≤ -enospc by decide)]; exact hi, rfl, rfl⟩
    | some g =>
      unfold setDone
      refine ⟨?_, rfl, rfl⟩
      rw [if_pos (Int.natCast_nonneg tryForthisslot)]
      exact hi.reuse hk hm (Nat.le_refl _) hslot habsent _

/-- `hto_del` of a key that is not in the table does nothing.  Otherwise it takes the
key out and returns its value, if `FREE` returns. -/
theorem HtoInv.del (hi : HtoInv sc ht m) (hk : key.Fits ht.type) (free : Key → Bool) :
    match htoDel sc free ht key with
    | none => m key ≠ none ∧ free key = false
    | some (v, ht') => v = (m key).getD 0 ∧ HtoInv sc ht' (Function.update m key none) ∧
        SameShape ht ht' ∧ (m key ≠ none → free key = true) := by
  have habsent : m key = none → (0 : BitVec 32) = (m key).getD 0 ∧
      HtoInv sc ht (Function.update m key none) ∧ SameShape ht ht ∧
        (m key ≠ none → free key = true) := by
    intro hnone
    have hsame : Function.update m key none = m := by rw [← hnone, Function.update_eq_self]
    rw [hsame]
    exact ⟨by rw [hnone]; rfl, hi, ⟨rfl, rfl⟩, fun hne => absurd hnone hne⟩
  unfold htoDel
  refine foreachProbe_rule (fun n _ => Missed sc ht key n none)
    (fun r => match r with
      | none => m key ≠ none ∧ free key = false
      | some (v, ht') => v = (m key).getD 0 ∧ HtoInv sc ht' (Function.update m key none) ∧
          SameShape ht ht' ∧ (m key ≠ none → free key = true)) missed_zero ?_ ?_
  · intro n _ hn hm
    unfold delBody
    by_cases hf : (ht.bucket (hash sc ht key n)).key = .keyFreed
    · have hslot := slots_eq_freed.mpr hf
      simp only [hf, if_true]
      exact hm.succ (by simp [hslot]) (by simp [hslot]) (by simp)
    by_cases h0 : (ht.bucket (hash sc ht key n)).key = .null
    · simp only [h0, reduceCtorEq, if_true, if_false]
      exact habsent (hi.maps.absent hi.wf hm.other (.inr (slots_eq_empty.mpr h0)))
    by_cases he : keycmp ht key (ht.bucket (hash sc ht key n)).key = 0
    · obtain ⟨hkey, hlive, hval⟩ := hi.found hk hf h0 he (hash_lt hi.size_pos)
      simp only [hf, h0, he, if_true, if_false]
      rw [hkey]
      by_cases hfree : free key = true
      · simp only [hfree, if_true]
        refine ⟨by rw [hval]; rfl, ?_, ⟨rfl, rfl⟩, fun _ => trivial⟩
        refine hi.erase ⟨rfl, rfl⟩ ?_
        have hslots : ((ht.setKey (hash sc ht key n) .keyFreed).setVal (hash sc ht key n) 0).slots =
            OpenTable.erase ht.slots key := slots_delete hlive (hi.only hlive)
        exact hslots
      · rw [if_neg hfree]
        exact ⟨by simp [hval], Bool.eq_false_iff.mpr hfree⟩
    · simp only [hf, h0, he, if_false]
      exact hm.step_other hi hk hf h0 he
  · intro _ hm
    exact habsent (hi.maps.absent hi.wf hm.other (.inl rfl))

end

/-! ## `hto_foreach` -/

/-- The callback function is called once for each key of `m`, with its value. -/
structure Visits (ht : Hto) (m : Key → Option (BitVec 32)) : Prop where
  once : ((htoForeach ht).map fun c => c.2.1).Nodup
  all : ∀ k v, (∃ pos, (pos, k, v) ∈ htoForeach ht) ↔ m k = some v

section
variable {sc : Bool} {ht ht' : Hto} {key : Key} {val : BitVec 32} {m : Key → Option (BitVec 32)}

theorem mem_htoForeach {pos : Nat} :
    (pos, key, val) ∈ htoForeach ht ↔ pos < ht.size ∧ ht.slots pos = .live key val := by
  unfold htoForeach
  rw [List.mem_filterMap]
  constructor
  · rintro ⟨h, hh, hsome⟩
    simp only [ite_eq_iff, Option.some.injEq, Prod.mk.injEq, reduceCtorEq, and_false,
      or_false] at hsome
    obtain ⟨⟨h0, hf⟩, rfl, rfl, rfl⟩ := hsome
    exact ⟨List.mem_range.mp hh, slots_live h0 hf⟩
  · rintro ⟨hlt, hlive⟩
    obtain ⟨hkey, h0, hf, hval⟩ := slots_eq_live.mp hlive
    exact ⟨pos, List.mem_range.mpr hlt, by simp [hkey, h0, hf, hval]⟩

theorem HtoInv.visits (hi : HtoInv sc ht m) : Visits ht m := by
  constructor
  · unfold htoForeach
    rw [List.map_filterMap]
    refine List.nodup_range.filterMap ?_
    intro a b k ha hb
    simp only [Option.mem_def, Option.map_eq_some_iff, ite_eq_iff, Option.some.injEq,
      reduceCtorEq, and_false, or_false] at ha hb
    obtain ⟨_, ⟨⟨ha0, haf⟩, rfl⟩, hka⟩ := ha
    obtain ⟨_, ⟨⟨hb0, hbf⟩, rfl⟩, hkb⟩ := hb
    have hla := slots_live ha0 haf
    have hlb := slots_live hb0 hbf
    simp only at hka hkb
    rw [hka] at hla
    rw [hkb] at hlb
    by_contra hne
    exact hi.only hlb a hne _ hla
  · intro k v
    rw [← hi.maps k v]
    simp only [mem_htoForeach]
    rfl

end

/-! ## Runs -/

/-- A call; that of `hto_del` with the keys for which `FREE` returns when it is made. -/
inductive HtoOp where
  | set (key : Key) (val : BitVec 32)
  | get (key : Key)
  | del (key : Key) (free : Key → Bool)

/-- The calls with keys of the table's type; `FREE` returns for the copies of strings, which
the allocator has given. -/
def HtoOp.Allowed (t : KeyType) : HtoOp → Prop
  | .set key _ | .get key => key.Fits t
  | .del key free => key.Fits t ∧ ∀ s, free (.str s) = true

section
variable (sc : Bool)

/-- The calls `ops`, made on a table that should be the map `m`, all return what the
map says, and the table can be traversed before and after each of them. -/
def MapOk : Hto → (Key → Option (BitVec 32)) → List HtoOp → Prop
  | ht, m, [] => Visits ht m
  | ht, m, .set key val :: ops =>
    Visits ht m ∧ MapOk (htoSet sc ht key val).2
      (if 0 ≤ (htoSet sc ht key val).1 then Function.update m key (some val) else m) ops
  | ht, m, .get key :: ops =>
    Visits ht m ∧ (htoGet sc ht key).1 = (m key).getD 0 ∧ MapOk (htoGet sc ht key).2 m ops
  | ht, m, .del key free :: ops =>
    Visits ht m ∧ ∃ v ht', htoDel sc free ht key = some (v, ht') ∧ v = (m key).getD 0 ∧
      MapOk ht' (Function.update m key none) ops

/-- A slot holds the key. -/
def Hto.Stores (ht : Hto) (key : Key) : Prop := ∃ h, h < ht.size ∧ (ht.bucket h).key = key

/-- Whenever a key that the table stores is deleted, `FREE` returns for it. -/
def FreesOk : Hto → List HtoOp → Prop
  | _, [] => True
  | ht, .set key val :: ops => FreesOk (htoSet sc ht key val).2 ops
  | ht, .get key :: ops => FreesOk (htoGet sc ht key).2 ops
  | ht, .del key free :: ops => (ht.Stores key → free key = true) ∧
      ∀ r, htoDel sc free ht key = some r → FreesOk r.2 ops

end

section
variable {sc : Bool} {ht : Hto} {m : Key → Option (BitVec 32)} {ops : List HtoOp}

theorem HtoInv.stores_iff {key : Key} (hi : HtoInv sc ht m) (hk : key.Fits ht.type) :
    ht.Stores key ↔ m key ≠ none := by
  rw [Option.ne_none_iff_exists']
  constructor
  · rintro ⟨h, hh, hkey⟩
    exact ⟨_, hi.maps.found hh (slots_eq_live.mpr ⟨hkey, hk.ne_null, hk.ne_keyFreed, rfl⟩)⟩
  · rintro ⟨v, hv⟩
    obtain ⟨h, hh, hlive⟩ := (hi.maps key v).mpr hv
    exact ⟨h, hh, (slots_eq_live.mp hlive).1⟩

/-- The calls behind the first one are allowed after it. -/
theorem allowed_rest {ht' : Hto} {op : HtoOp} (hs : SameShape ht ht')
    (hok : ∀ op' ∈ op :: ops, op'.Allowed ht.type) : ∀ op' ∈ ops, op'.Allowed ht'.type := by
  intro op' hop'
  rw [hs.type]
  exact hok op' (List.mem_cons_of_mem op hop')

theorem HtoInv.mapOk_iff (hi : HtoInv sc ht m) (hok : ∀ op ∈ ops, op.Allowed ht.type) :
    MapOk sc ht m ops ↔ FreesOk sc ht ops := by
  induction ops generalizing ht m with
  | nil => simp [MapOk, FreesOk, hi.visits]
  | cons op ops ih =>
    have hop := hok op (by simp)
    have hrest := fun (t : Hto) (hs : SameShape ht t) => allowed_rest hs hok
    cases op with
    | set key val =>
      obtain ⟨hinv, hs⟩ := hi.set hop val
      simp only [MapOk, FreesOk, hi.visits, true_and]
      exact ih hinv (hrest _ hs)
    | get key =>
      obtain ⟨hval, hinv, hs⟩ := hi.get hop
      simp only [MapOk, FreesOk, hi.visits, hval, true_and]
      exact ih hinv (hrest _ hs)
    | del key free =>
      have hdel := hi.del hop.1 free
      simp only [MapOk, FreesOk, hi.visits, true_and, hi.stores_iff hop.1]
      cases hres : htoDel sc free ht key with
      | none =>
        rw [hres] at hdel
        simp [hdel.1, hdel.2]
      | some r =>
        rw [hres] at hdel
        obtain ⟨v, ht'⟩ := r
        obtain ⟨hv, hinv, hs, hfree⟩ := hdel
        have hih := ih hinv (hrest _ hs)
        constructor
        · rintro ⟨v', ht'', he, -, hrun⟩
          rw [Option.some.injEq, Prod.mk.injEq] at he
          obtain ⟨rfl, rfl⟩ := he
          refine ⟨hfree, fun r hr => ?_⟩
          rw [Option.some.injEq] at hr
          exact hr ▸ hih.mp hrun
        · rintro ⟨-, hrun⟩
          exact ⟨v, ht', rfl, hv, hih.mpr (hrun _ rfl)⟩

/-- The keys of a table of strings are copies. -/
theorem HtoInv.freesOk_string (hi : HtoInv sc ht m) (hok : ∀ op ∈ ops, op.Allowed ht.type)
    (hs : ht.type = .string) : FreesOk sc ht ops := by
  induction ops generalizing ht m with
  | nil => trivial
  | cons op ops ih =>
    have hop := hok op (by simp)
    have hrest := fun (t : Hto) (hs : SameShape ht t) => allowed_rest hs hok
    cases op with
    | set key val =>
      obtain ⟨hinv, hshape⟩ := hi.set hop val
      exact ih hinv (hrest _ hshape) (hshape.type.trans hs)
    | get key =>
      obtain ⟨-, hinv, hshape⟩ := hi.get hop
      exact ih hinv (hrest _ hshape) (hshape.type.trans hs)
    | del key free =>
      have hdel := hi.del hop.1 free
      constructor
      · intro _
        obtain ⟨hk, hfree⟩ := hop
        rw [hs] at hk
        cases key <;> simp only [Key.Fits] at hk
        exact hfree _
      · intro r hr
        rw [hr] at hdel
        obtain ⟨-, hinv, hshape, -⟩ := hdel
        exact ih hinv (hrest _ hshape) (hshape.type.trans hs)

theorem htoInv_create {nb type : Nat} (hc : htoCreate nb type = some ht) (hsize : 3 ≤ ht.size) :
    HtoInv sc ht fun _ => none := by
  have hempty : ∀ h, ht.slots h = .empty := by
    intro h
    unfold htoCreate at hc
    simp only at hc
    split at hc
    · exact absurd hc (by simp)
    · rw [Option.some.injEq] at hc
      rw [slots_eq_empty, ← hc]
  refine ⟨by omega, ⟨?_, ?_⟩, ?_, ?_, fun h _ => hempty h⟩
  · intro h k v _ hlive
    rw [hempty] at hlive
    exact absurd hlive (by simp)
  · intro h g k v w _ _ hlive
    rw [hempty] at hlive
    exact absurd hlive (by simp)
  · intro k v
    simp [Binds, hempty]
  · intro h k v hlive
    rw [hempty] at hlive
    exact absurd hlive (by simp)

end

/-- A table is a finite map in a run exactly when its keys are strings or `FREE` returns
for each stored pointer that is deleted. -/
theorem htoRun_map_iff {sc : Bool} {nb type : Nat} {ht : Hto} {ops : List HtoOp}
    (hc : htoCreate nb type = some ht) (hsize : 3 ≤ ht.size)
    (hok : ∀ op ∈ ops, op.Allowed ht.type) :
    MapOk sc ht (fun _ => none) ops ↔ ht.type = .string ∨ FreesOk sc ht ops := by
  have hi : HtoInv sc ht fun _ => none := htoInv_create hc hsize
  rw [hi.mapOk_iff hok]
  exact ⟨.inr, fun h => h.elim (hi.freesOk_string hok) id⟩

/-! ## A pointer is deleted -/

/-- The pointer 5. -/
def fivePtr : Key := .ptr ⟨5, by decide, by decide⟩

/-- `FREE` in the kernel: `kfree`, with an empty heap apart from the copies of strings. -/
def kernelFree : Key → Bool
  | .str _ => true
  | key => (Kernel.kfree Kernel.twoPages key.addr.toNat
      (Kernel.kmemkernelInit Kernel.twoPages Kernel.usedMem)).isSome

/-- The deletion of a pointer that `kmalloc` has not given ends in a panic. -/
theorem hto_del_pointer_panics :
    ∃ ht, htoCreate 3 1 = some ht ∧ ht.size = 3 ∧
      (∀ op ∈ [.set fivePtr 7, .del fivePtr kernelFree], HtoOp.Allowed ht.type op) ∧
      htoDel false kernelFree (htoSet false ht fivePtr 7).2 fivePtr = none ∧
      ¬ MapOk false ht (fun _ => none) [.set fivePtr 7, .del fivePtr kernelFree] := by
  have hdel : ((htoCreate 3 1).bind fun ht =>
      htoDel false kernelFree (htoSet false ht fivePtr 7).2 fivePtr) = none := by
    have hnone : ((htoCreate 3 1).bind fun ht =>
        htoDel false kernelFree (htoSet false ht fivePtr 7).2 fivePtr).isNone = true := by
      decide +kernel
    exact Option.isNone_iff_eq_none.mp hnone
  obtain ⟨ht, hc⟩ : ∃ ht, htoCreate 3 1 = some ht := ⟨_, rfl⟩
  rw [hc, Option.bind_some] at hdel
  have hshape : ht.size = 3 ∧ ht.type = .pointer := by
    have hsome : (htoCreate 3 1).map (fun ht => (ht.size, ht.type)) = some (3, .pointer) := rfl
    rw [hc, Option.map_some, Option.some.injEq, Prod.mk.injEq] at hsome
    exact hsome
  refine ⟨ht, hc, hshape.1, ?_, hdel, ?_⟩
  · rw [hshape.2]
    simp [HtoOp.Allowed, Key.Fits, fivePtr, kernelFree]
  · rintro ⟨-, -, v, ht', hsome, -⟩
    rw [hdel] at hsome
    exact absurd hsome (by simp)

/-- The run when the pointer is an object that `FREE` takes. -/
theorem htoRun_map_fivePtr : ∃ ht, htoCreate 3 1 = some ht ∧
    MapOk false ht (fun _ => none) [.set fivePtr 7, .get fivePtr, .del fivePtr fun _ => true] := by
  obtain ⟨ht, hc⟩ : ∃ ht, htoCreate 3 1 = some ht := ⟨_, rfl⟩
  have hshape : ht.size = 3 ∧ ht.type = .pointer := by
    have hsome : (htoCreate 3 1).map (fun ht => (ht.size, ht.type)) = some (3, .pointer) := rfl
    rw [hc, Option.map_some, Option.some.injEq, Prod.mk.injEq] at hsome
    exact hsome
  refine ⟨ht, hc, (htoRun_map_iff hc (by omega) ?_).mpr (.inr ?_)⟩
  · rw [hshape.2]
    simp [HtoOp.Allowed, Key.Fits, fivePtr]
  · exact ⟨fun _ => rfl, fun _ _ => trivial⟩

end Ko6.Common
