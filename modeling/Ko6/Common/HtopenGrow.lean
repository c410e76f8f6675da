import Ko6.Common.HtopenRehash

set_option autoImplicit false

/-!
# Common: `hto_set_grow`

`hto_set_grow` tries `hto_set`, and as long as the key takes too many tries it doubles the
table and tries again.  It takes -1 for the sign of a full table, but `hto_set` returns
-ENOSPC.  It does not look at what `hto_rehash` returns: when the table cannot grow, the
next `hto_set` finds the key at the place it has already.
-/

namespace Ko6.Common

open Ko6.Lib Ko6.Lib.OpenTable

section
variable (signedChar : Bool) (key : Key) (val : BitVec 32) (maxtry : Nat)

/-- The loop of `hto_set_grow`, after a call of `hto_set`; `malloc` tells for each turn
whether `MALLOC` gives a block.  The result says as well whether all calls of
`hto_rehash` have returned a table. -/
def growLoop (malloc : Nat → Bool) : Nat → Nat → Int × Hto → Bool → Option (Int × Hto × Bool)
  | 0, _, _, _ => none
  | fuel + 1, turn, (nbtry, ht), grown =>
    if nbtry = -1 ∨ nbtry > maxtry then
      let (ret, pht) := htoRehash signedChar (some ht) 200 (malloc turn)
      growLoop malloc fuel (turn + 1) (htoSet signedChar (pht.getD ht) key val)
        (grown && ret.isSome)
    else some (nbtry, ht, grown)

/-- `hto_set_grow`, if it ends within `fuel` turns. -/
def htoSetGrow (malloc : Nat → Bool) (fuel : Nat) (ht : Hto) : Option (Int × Hto × Bool) :=
  growLoop signedChar key val maxtry malloc fuel 0 (htoSet signedChar ht key val) true

end

/-! ## Where `hto_set` finds its place -/

section
variable (signedChar : Bool) (ht : Hto) (key : Key)

/-- The slot of try `n` holds the key. -/
def HoldsAt (n : Nat) : Prop :=
  (ht.bucket (hash signedChar ht key n)).key ≠ .null ∧
    (ht.bucket (hash signedChar ht key n)).key ≠ .keyFreed ∧
    keycmp ht key (ht.bucket (hash signedChar ht key n)).key = 0

/-- The slot of try `n` is empty, freed, or holds the key. -/
def Welcomes (n : Nat) : Prop :=
  ¬ ht.OtherAt key (hash signedChar ht key n)

/-- Some try of the key comes to a slot that can take it. -/
def HasRoom : Prop := ∃ n, n < ht.size ∧ Welcomes signedChar ht key n

/-- There is room for the key, but not among the first `maxtry + 1` tries. -/
def Far (maxtry : Nat) : Prop :=
  HasRoom signedChar ht key ∧ ∀ n, n < ht.size → n ≤ maxtry → ¬ Welcomes signedChar ht key n

/-- The search finds the key after more than `maxtry` tries. -/
def FoundLate (maxtry : Nat) : Prop :=
  ∃ n, n < ht.size ∧ maxtry < n ∧ HoldsAt signedChar ht key n ∧
    ∀ u, u < n → (ht.bucket (hash signedChar ht key u)).key ≠ .null ∧
      ¬ HoldsAt signedChar ht key u

end

section
variable {sc : Bool} {ht ht' : Hto} {key : Key} {val : BitVec 32} {n u h g maxtry : Nat}

theorem not_welcomes : ¬ Welcomes sc ht key n ↔ ht.OtherAt key (hash sc ht key n) := not_not

theorem HoldsAt.welcomes (hn : HoldsAt sc ht key n) : Welcomes sc ht key n :=
  fun hother => hother.2.2 hn.2.2

theorem welcomes_of_null (h0 : (ht.bucket (hash sc ht key n)).key = .null) :
    Welcomes sc ht key n := fun hother => hother.1 h0

theorem welcomes_of_keyFreed (hf : (ht.bucket (hash sc ht key n)).key = .keyFreed) :
    Welcomes sc ht key n := fun hother => hother.2.1 hf

/-- What `hto_set` of a key does: nothing in a full table, a change of the value of a key
that no freed slot precedes, a move of a key to the first freed slot, or an insertion at
the first slot that can take it. -/
inductive Sets (sc : Bool) (ht : Hto) (key : Key) (val : BitVec 32) : Int × Hto → Prop
  | full : (∀ u, u < ht.size → ¬ Welcomes sc ht key u) → Sets sc ht key val (-enospc, ht)
  | found (n : Nat) : n < ht.size → (∀ u, u < n → ¬ Welcomes sc ht key u) →
      HoldsAt sc ht key n → Sets sc ht key val (n, ht.setVal (hash sc ht key n) val)
  | move (u n : Nat) : u < n → n < ht.size → (∀ w, w < u → ¬ Welcomes sc ht key w) →
      (ht.bucket (hash sc ht key u)).key = .keyFreed →
      (∀ w, w < n → (ht.bucket (hash sc ht key w)).key ≠ .null ∧ ¬ HoldsAt sc ht key w) →
      HoldsAt sc ht key n →
      Sets sc ht key val (n, ((ht.setKey (hash sc ht key n) .keyFreed).setKey (hash sc ht key u)
        (ht.bucket (hash sc ht key n)).key).setVal (hash sc ht key u) val)
  | insert (u : Nat) (empty freed : BitVec 32) : u < ht.size →
      (∀ w, w < u → ¬ Welcomes sc ht key w) → Welcomes sc ht key u →
      (∀ n, n < ht.size → HoldsAt sc ht key n →
        ∃ w, w < n ∧ ((ht.bucket (hash sc ht key w)).key = .null ∨ HoldsAt sc ht key w)) →
      Sets sc ht key val
        (u, (Hto.setKey { ht with empty := empty, freed := freed } (hash sc ht key u) key).setVal
          (hash sc ht key u) val)

/-- `n` tries have met neither the key nor an empty slot; `slot`, of the try
`tryForthisslot`, is the first freed slot of them. -/
structure Searched (sc : Bool) (ht : Hto) (key : Key) (n : Nat) (slot : Option Nat)
    (tryForthisslot : Nat) : Prop where
  missed : ∀ w, w < n → (ht.bucket (hash sc ht key w)).key ≠ .null ∧ ¬ HoldsAt sc ht key w
  none : slot = none → ∀ w, w < n → ¬ Welcomes sc ht key w
  some : ∀ g, slot = some g → tryForthisslot < n ∧ hash sc ht key tryForthisslot = g ∧
    (ht.bucket g).key = .keyFreed ∧ ∀ w, w < tryForthisslot → ¬ Welcomes sc ht key w

theorem Searched.succ_missed {slot : Option Nat} {v : Nat} (hs : Searched sc ht key n slot v)
    (h0 : (ht.bucket (hash sc ht key n)).key ≠ .null) (hno : ¬ HoldsAt sc ht key n) :
    ∀ w, w < n + 1 → (ht.bucket (hash sc ht key w)).key ≠ .null ∧ ¬ HoldsAt sc ht key w := by
  intro w hw
  rcases Nat.lt_succ_iff_lt_or_eq.mp hw with hw | rfl
  · exact hs.missed w hw
  · exact ⟨h0, hno⟩

/-- A key that the search has missed so far, at an empty slot or at its end, is held
behind an empty slot only. -/
theorem Searched.behind {slot : Option Nat} {v : Nat} (hs : Searched sc ht key n slot v)
    (hend : n = ht.size ∨ (ht.bucket (hash sc ht key n)).key = .null) :
    ∀ k, k < ht.size → HoldsAt sc ht key k →
      ∃ w, w < k ∧ ((ht.bucket (hash sc ht key w)).key = .null ∨ HoldsAt sc ht key w) := by
  intro k hk hhold
  rcases Nat.lt_trichotomy k n with hkn | rfl | hnk
  · exact absurd hhold (hs.missed k hkn).2
  · rcases hend with rfl | h0
    · omega
    · exact absurd h0 hhold.1
  · rcases hend with rfl | h0
    · omega
    · exact ⟨n, hnk, .inl h0⟩

theorem htoSet_sets (hkey : key ≠ .keyFreed) (val : BitVec 32) :
    Sets sc ht key val (htoSet sc ht key val) := by
  unfold htoSet
  rw [if_neg hkey]
  refine foreachProbe_rule (fun n (s : Option Nat × Nat) => Searched sc ht key n s.1 s.2)
    (Sets sc ht key val)
    ⟨fun w hw => absurd hw (Nat.not_lt_zero w), fun _ w hw => absurd hw (Nat.not_lt_zero w),
      fun _ h => absurd h (by simp)⟩ ?_ ?_
  · rintro n ⟨slot, tryForthisslot⟩ hn (hs : Searched sc ht key n slot tryForthisslot)
    unfold setBody
    by_cases hf : (ht.bucket (hash sc ht key n)).key = .keyFreed
    · have hmissed := hs.succ_missed (by rw [hf]; simp) fun hhold => hhold.2.1 hf
      simp only [hf, if_true]
      cases slot with
      | none =>
        refine ⟨hmissed, fun h => absurd h (by simp), fun g hg => ?_⟩
        obtain rfl := Option.some.inj hg
        exact ⟨Nat.lt_succ_self n, rfl, hf, hs.none rfl⟩
      | some g' =>
        refine ⟨hmissed, fun h => absurd h (by simp), fun g hg => ?_⟩
        obtain ⟨hlt, hrest⟩ := hs.some g hg
        exact ⟨Nat.lt_succ_of_lt hlt, hrest⟩
    by_cases h0 : (ht.bucket (hash sc ht key n)).key = .null
    · have hbehind := hs.behind (.inr h0)
      simp only [h0, reduceCtorEq, if_true, if_false]
      cases slot with
      | none =>
        exact .insert n (ht.empty - 1) ht.freed hn (hs.none rfl) (welcomes_of_null h0) hbehind
      | some g =>
        obtain ⟨hlt, rfl, hkeyFreed, hfirst⟩ := hs.some g rfl
        exact .insert tryForthisslot ht.empty (ht.freed - 1) (Nat.lt_trans hlt hn) hfirst
          (welcomes_of_keyFreed hkeyFreed) hbehind
    by_cases he : keycmp ht key (ht.bucket (hash sc ht key n)).key = 0
    · simp only [hf, h0, he, if_true, if_false]
      cases slot with
      | none => exact .found n hn (hs.none rfl) ⟨h0, hf, he⟩
      | some g =>
        obtain ⟨hlt, rfl, hkeyFreed, hfirst⟩ := hs.some g rfl
        exact .move tryForthisslot n hlt hn hfirst hkeyFreed hs.missed ⟨h0, hf, he⟩
    · simp only [hf, h0, he, if_false]
      refine ⟨hs.succ_missed h0 fun hhold => he hhold.2.2, fun hnone w hw => ?_, fun g hg => ?_⟩
      · rcases Nat.lt_succ_iff_lt_or_eq.mp hw with hw | rfl
        · exact hs.none hnone w hw
        · exact not_welcomes.mpr ⟨h0, hf, he⟩
      · obtain ⟨hlt, hrest⟩ := hs.some g hg
        exact ⟨Nat.lt_succ_of_lt hlt, hrest⟩
  · rintro ⟨slot, tryForthisslot⟩ (hs : Searched sc ht key ht.size slot tryForthisslot)
    cases slot with
    | none => exact .full (hs.none rfl)
    | some g =>
      obtain ⟨hlt, rfl, hkeyFreed, hfirst⟩ := hs.some g rfl
      exact .insert tryForthisslot ht.empty (ht.freed - 1) hlt hfirst
        (welcomes_of_keyFreed hkeyFreed) (hs.behind (.inl rfl))

/-- `hto_set` takes more than `maxtry` tries when there is room for the key, but far, and
when it finds the key late. -/
theorem Sets.gt_iff {r : Int × Hto} (hs : Sets sc ht key val r) :
    r.1 > maxtry ↔ Far sc ht key maxtry ∨ FoundLate sc ht key maxtry := by
  have hfound : ∀ n n', HoldsAt sc ht key n → HoldsAt sc ht key n' →
      (∀ u, u < n → ¬ HoldsAt sc ht key u) → (∀ u, u < n' → ¬ HoldsAt sc ht key u) → n = n' := by
    intro n n' hn hn' hb hb'
    rcases Nat.lt_trichotomy n n' with hlt | heq | hgt
    · exact absurd hn (hb' n hlt)
    · exact heq
    · exact absurd hn' (hb n' hgt)
  cases hs with
  | full hall =>
    refine iff_of_false (by simp [enospc]) ?_
    rintro (⟨⟨n, hn, hw⟩, -⟩ | ⟨n, hn, -, hhold, -⟩)
    · exact hall n hn hw
    · exact hall n hn hhold.welcomes
  | found n hn hfirst hhold =>
    have hno : ∀ u, u < n → ¬ HoldsAt sc ht key u := fun u hu h => hfirst u hu h.welcomes
    constructor
    · intro hgt
      refine .inl ⟨⟨n, hn, hhold.welcomes⟩, fun u hu hle => hfirst u ?_⟩
      have hgt' : maxtry < n := Int.ofNat_lt.mp hgt
      omega
    · rintro (⟨-, hfar⟩ | ⟨n', -, hgt, hhold', hb⟩)
      · have hgt : maxtry < n := by
          by_contra hle
          exact hfar n hn (Nat.not_lt.mp hle) hhold.welcomes
        exact Int.ofNat_lt.mpr hgt
      · obtain rfl := hfound n n' hhold hhold' hno fun u hu => (hb u hu).2
        exact Int.ofNat_lt.mpr hgt
  | move u n hun hn hfirst hkeyFreed hmissed hhold =>
    have hno : ∀ u, u < n → ¬ HoldsAt sc ht key u := fun u hu => (hmissed u hu).2
    constructor
    · intro hgt
      exact .inr ⟨n, hn, Int.ofNat_lt.mp hgt, hhold, hmissed⟩
    · rintro (⟨-, hfar⟩ | ⟨n', -, hgt, hhold', hb⟩)
      · have hgt : maxtry < n := by
          by_contra hle
          exact hfar u (by omega) (by omega) (welcomes_of_keyFreed hkeyFreed)
        exact Int.ofNat_lt.mpr hgt
      · obtain rfl := hfound n n' hhold hhold' hno fun u hu => (hb u hu).2
        exact Int.ofNat_lt.mpr hgt
  | insert u empty freed hu hfirst hw hbehind =>
    constructor
    · intro hgt
      have hgt' : maxtry < u := Int.ofNat_lt.mp hgt
      exact .inl ⟨⟨u, hu, hw⟩, fun w hw hle => hfirst w (by omega)⟩
    · rintro (⟨-, hfar⟩ | ⟨n', hn', -, hhold', hb⟩)
      · have hgt : maxtry < u := by
          by_contra hle
          exact hfar u hu (Nat.not_lt.mp hle) hw
        exact Int.ofNat_lt.mpr hgt
      · obtain ⟨w, hw, hnull | hhold⟩ := hbehind n' hn' hhold'
        · exact absurd hnull (hb w hw).1
        · exact absurd hhold (hb w hw).2

/-- `hto_set` fails in a full table only, and never with -1. -/
theorem Sets.nonneg_iff {r : Int × Hto} (hs : Sets sc ht key val r) :
    (0 ≤ r.1 ↔ HasRoom sc ht key) ∧ r.1 ≠ -1 := by
  cases hs with
  | full hall =>
    refine ⟨iff_of_false (by simp [enospc]) ?_, by simp [enospc]⟩
    rintro ⟨n, hn, hw⟩
    exact hall n hn hw
  | found n hn _ hhold => exact ⟨iff_of_true (by simp) ⟨n, hn, hhold.welcomes⟩, by simp⟩
  | move u n hun hn _ _ _ hhold =>
    exact ⟨iff_of_true (by simp) ⟨n, hn, hhold.welcomes⟩, by simp⟩
  | insert u _ _ hu _ hw => exact ⟨iff_of_true (by simp) ⟨u, hu, hw⟩, by simp⟩

/-! ## A key that has its place -/

theorem keycmp_self (ht : Hto) (key : Key) : keycmp ht key key = 0 := by
  unfold keycmp
  cases ht.type with
  | pointer => exact BitVec.sub_self _
  | string =>
    have hself : strcmp key.chars key.chars = 0 := by
      cases key with
      | str s => exact (strcmp_eq_zero s.nonzero s.nonzero).mpr rfl
      | null | keyFreed | ptr => rfl
    simp only [hself]
    rfl

/-- The first slot of the tries that can take the key is that of try `u`. -/
structure First (sc : Bool) (ht : Hto) (key : Key) (u : Nat) : Prop where
  lt : u < ht.size
  before : ∀ w, w < u → ¬ Welcomes sc ht key w
  welcomes : Welcomes sc ht key u

/-- `hto_set` finds the key at this slot, or an empty slot for the key `NULL`. -/
structure Settled (sc : Bool) (ht : Hto) (key : Key) (u : Nat) : Prop
    extends First sc ht key u where
  holds : HoldsAt sc ht key u ∨
    key = .null ∧ (ht.bucket (hash sc ht key u)).key = .null

theorem First.unique {v : Nat} (hu : First sc ht key u) (hv : First sc ht key v) : u = v := by
  rcases Nat.lt_trichotomy u v with hlt | heq | hgt
  · exact absurd hu.welcomes (hv.before u hlt)
  · exact heq
  · exact absurd hv.welcomes (hu.before v hgt)

theorem First.far_iff (hu : First sc ht key u) : Far sc ht key maxtry ↔ maxtry < u := by
  constructor
  · rintro ⟨-, hfar⟩
    by_contra hle
    exact hfar u hu.lt (Nat.not_lt.mp hle) hu.welcomes
  · intro hgt
    exact ⟨⟨u, hu.lt, hu.welcomes⟩, fun w _ hle => hu.before w (by omega)⟩

/-- What a slot says depends on its key only. -/
theorem welcomes_congr (hs : SameShape ht ht')
    (hkey : (ht'.bucket (hash sc ht key n)).key = (ht.bucket (hash sc ht key n)).key) :
    Welcomes sc ht' key n ↔ Welcomes sc ht key n := by
  unfold Welcomes Hto.OtherAt keycmp
  rw [hs.hash, hs.type, hkey]

theorem Welcomes.of_hash {v : Nat} (hw : Welcomes sc ht key u)
    (heq : hash sc ht key v = hash sc ht key u) : Welcomes sc ht key v := by
  unfold Welcomes
  rw [heq]
  exact hw

/-- After a call of `hto_set` that does not fail, the key has its place, and it is where
the first slot was that could take it. -/
theorem Sets.settled {r : Int × Hto} (hs : Sets sc ht key val r) (hkey : key ≠ .keyFreed)
    (hr : 0 ≤ r.1) : ∃ u, First sc ht key u ∧ Settled sc r.2 key u ∧
      (r.1 = u ∨ (ht.bucket (hash sc ht key u)).key = .keyFreed ∧ FoundLate sc ht key u) := by
  cases hs with
  | full => exact absurd (show (0 : Int) ≤ -enospc from hr) (by decide)
  | found n hn hfirst hhold =>
    have hf : First sc ht key n := ⟨hn, hfirst, hhold.welcomes⟩
    have hshape : SameShape ht (ht.setVal (hash sc ht key n) val) := ⟨rfl, rfl⟩
    have hsame : ∀ h, ((ht.setVal (hash sc ht key n) val).bucket h).key = (ht.bucket h).key := by
      intro h
      by_cases hh : h = hash sc ht key n <;> simp [Hto.setVal, hh]
    refine ⟨n, hf, ⟨⟨hn, fun w hw => ?_, ?_⟩, .inl ?_⟩, .inl rfl⟩
    · rw [welcomes_congr hshape (hsame _)]
      exact hfirst w hw
    · rw [welcomes_congr hshape (hsame _)]
      exact hhold.welcomes
    · unfold HoldsAt keycmp
      rw [hshape.hash, hshape.type, hsame]
      exact hhold
  | move u n hun hn hfirst hkeyFreed hmissed hhold =>
    have hu : u < ht.size := Nat.lt_trans hun hn
    have hf : First sc ht key u := ⟨hu, hfirst, welcomes_of_keyFreed hkeyFreed⟩
    obtain ⟨ht', hht'⟩ : ∃ ht', ht' = ((ht.setKey (hash sc ht key n) .keyFreed).setKey
        (hash sc ht key u) (ht.bucket (hash sc ht key n)).key).setVal (hash sc ht key u) val :=
      ⟨_, rfl⟩
    have hshape : SameShape ht ht' := by
      rw [hht']
      exact ⟨rfl, rfl⟩
    have hself : (ht'.bucket (hash sc ht key u)).key = (ht.bucket (hash sc ht key n)).key := by
      rw [hht']
      simp [Hto.setKey, Hto.setVal]
    have hother : ∀ w, w < u →
        (ht'.bucket (hash sc ht key w)).key = (ht.bucket (hash sc ht key w)).key := by
      intro w hw
      have hwu : hash sc ht key w ≠ hash sc ht key u := fun heq =>
        hfirst w hw (hf.welcomes.of_hash heq)
      have hwn : hash sc ht key w ≠ hash sc ht key n := fun heq =>
        hfirst w hw (hhold.welcomes.of_hash heq)
      rw [hht']
      simp [Hto.setKey, Hto.setVal, hwu, hwn]
    have hhold' : HoldsAt sc ht' key u := by
      unfold HoldsAt keycmp
      rw [hshape.hash, hshape.type, hself]
      exact hhold
    rw [← hht']
    refine ⟨u, hf, ⟨⟨hshape.size ▸ hu, fun w hw => ?_, hhold'.welcomes⟩, .inl hhold'⟩,
      .inr ⟨hkeyFreed, n, hn, hun, hhold, hmissed⟩⟩
    rw [welcomes_congr hshape (hother w hw)]
    exact hfirst w hw
  | insert u empty freed hu hfirst hw hbehind =>
    have hf : First sc ht key u := ⟨hu, hfirst, hw⟩
    obtain ⟨ht', hht'⟩ : ∃ ht', ht' = (Hto.setKey { ht with empty := empty, freed := freed }
        (hash sc ht key u) key).setVal (hash sc ht key u) val := ⟨_, rfl⟩
    have hshape : SameShape ht ht' := by
      rw [hht']
      exact ⟨rfl, rfl⟩
    have hself : (ht'.bucket (hash sc ht key u)).key = key := by
      rw [hht']
      simp [Hto.setKey, Hto.setVal]
    have hother : ∀ w, w < u →
        (ht'.bucket (hash sc ht key w)).key = (ht.bucket (hash sc ht key w)).key := by
      intro w hw'
      have hwu : hash sc ht key w ≠ hash sc ht key u := fun heq =>
        hfirst w hw' (hw.of_hash heq)
      rw [hht']
      simp [Hto.setKey, Hto.setVal, hwu]
    have hbefore : ∀ w, w < u → ¬ Welcomes sc ht' key w := by
      intro w hw'
      rw [welcomes_congr hshape (hother w hw')]
      exact hfirst w hw'
    rw [← hht']
    by_cases h0 : key = .null
    · have hnull : (ht'.bucket (hash sc ht' key u)).key = .null := by
        rw [hshape.hash, hself, h0]
      exact ⟨u, hf, ⟨⟨hshape.size ▸ hu, hbefore, welcomes_of_null hnull⟩, .inr ⟨h0, hnull⟩⟩,
        .inl rfl⟩
    · have hhold : HoldsAt sc ht' key u := by
        unfold HoldsAt
        rw [hshape.hash, hself]
        exact ⟨h0, hkey, keycmp_self ht' key⟩
      exact ⟨u, hf, ⟨⟨hshape.size ▸ hu, hbefore, hhold.welcomes⟩, .inl hhold⟩, .inl rfl⟩

/-- `hto_set` of a key that has its place finds it there. -/
theorem Settled.set (hu : Settled sc ht key u) (hkey : key ≠ .keyFreed) (val : BitVec 32) :
    (htoSet sc ht key val).1 = u ∧ Settled sc (htoSet sc ht key val).2 key u := by
  have hs : Sets sc ht key val (htoSet sc ht key val) := htoSet_sets hkey val
  have hroom : HasRoom sc ht key := ⟨u, hu.lt, hu.welcomes⟩
  obtain ⟨v, hf, hsettled, hret⟩ := hs.settled hkey (hs.nonneg_iff.1.mpr hroom)
  obtain rfl := hf.unique hu.toFirst
  refine ⟨hret.resolve_right ?_, hsettled⟩
  rintro ⟨hkeyFreed, -⟩
  rcases hu.holds with hhold | ⟨-, h0⟩
  · exact hhold.2.1 hkeyFreed
  · rw [hkeyFreed] at h0
    exact absurd h0 (by simp)

/-! ## The grown table -/

/-- A table without freed slots keeps none. -/
theorem Sets.noFreed {r : Int × Hto} (hs : Sets sc ht key val r) (hf : NoFreed ht)
    (hkey : key ≠ .keyFreed) : NoFreed r.2 := by
  intro h hh
  rw [slots_eq_freed] at hh
  cases hs with
  | full => exact hf h (slots_eq_freed.mpr hh)
  | found n =>
    refine hf h (slots_eq_freed.mpr ?_)
    rw [← hh]
    by_cases he : h = hash sc ht key n <;> simp [Hto.setVal, he]
  | move u n _ _ _ hkeyFreed => exact hf _ (slots_eq_freed.mpr hkeyFreed)
  | insert u =>
    by_cases he : h = hash sc ht key u
    · simp [Hto.setKey, Hto.setVal, he] at hh
      exact hkey hh
    · simp [Hto.setKey, Hto.setVal, he] at hh
      exact hf h (slots_eq_freed.mpr hh)

/-- The table that `hto_rehash` returns has no freed slots. -/
theorem htoRehash_noFreed {percent : BitVec 32} {malloc : Bool} {newHt : Hto}
    (hr : (htoRehash sc (some ht) percent malloc).1 = some newHt) : NoFreed newHt := by
  have hloop : ∀ (is : List Nat) (t : Hto), NoFreed t → NoFreed (is.foldl (reinsert sc ht) t) := by
    intro is
    induction is with
    | nil => exact fun t ht => ht
    | cons i is ih =>
      intro t hfree
      refine ih _ ?_
      unfold reinsert
      simp only
      split
      · rename_i hlive
        exact (htoSet_sets hlive.2 _).noFreed hfree hlive.2
      · exact hfree
  unfold htoRehash at hr
  by_cases hp : percent = 0
  · simp [hp] at hr
  simp only [hp, if_false] at hr
  cases htab : rehashTable ht percent malloc with
  | none => simp [htab] at hr
  | some t =>
    simp only [htab, Option.some.injEq] at hr
    rw [← hr]
    refine hloop _ _ fun h => ?_
    rw [(rehashTable_eq_some hp htab).2.2 h]
    simp

/-- Without freed slots a key that is found late is far. -/
theorem NoFreed.far_of_foundLate (hf : NoFreed ht) (hl : FoundLate sc ht key maxtry) :
    Far sc ht key maxtry := by
  obtain ⟨n, hn, hgt, hhold, hmissed⟩ := hl
  refine ⟨⟨n, hn, hhold.welcomes⟩, fun u hu hle => ?_⟩
  obtain ⟨h0, hno⟩ := hmissed u (by omega)
  have hkeyFreed : (ht.bucket (hash sc ht key u)).key ≠ .keyFreed := fun h =>
    hf _ (slots_eq_freed.mpr h)
  exact not_welcomes.mpr ⟨h0, hkeyFreed, fun he => hno ⟨h0, hkeyFreed, he⟩⟩

/-! ## Termination -/

/-- `*pht` is the table that `hto_rehash` returns, or what it was. -/
theorem htoRehash_pht {percent : BitVec 32} {malloc : Bool} :
    (htoRehash sc (some ht) percent malloc).2 =
      some ((htoRehash sc (some ht) percent malloc).1.getD ht) := by
  unfold htoRehash
  by_cases hp : percent = 0
  · simp [hp]
  simp only [hp, if_false]
  cases rehashTable ht percent malloc <;> rfl

theorem htoRehash_fails : (htoRehash sc (some ht) 200 false).1 = none := by
  unfold htoRehash rehashTable
  simp

/-- `hto_set_grow` ends. -/
def GrowEnds (sc : Bool) (malloc : Nat → Bool) (ht : Hto) (key : Key) (val : BitVec 32)
    (maxtry : Nat) : Prop :=
  ∃ fuel, (htoSetGrow sc key val maxtry malloc fuel ht).isSome = true

/-- The key is near: not far in the table, and where the search finds it late, before it
is moved, not far in the doubled table either. -/
def Near (sc : Bool) (ht : Hto) (key : Key) (val : BitVec 32) (maxtry : Nat) : Prop :=
  ¬ Far sc ht key maxtry ∧ (FoundLate sc ht key maxtry → ∀ newHt,
    (htoRehash sc (some (htoSet sc ht key val).2) 200 true).1 = some newHt →
      ¬ Far sc newHt key maxtry)

/-- The loop ends when `hto_set` has not taken too many tries. -/
theorem growLoop_done {malloc : Nat → Bool} {turn fuel : Nat} {r : Int × Hto} {grown : Bool}
    (hle : r.1 ≤ maxtry) (hne : r.1 ≠ -1) :
    growLoop sc key val maxtry malloc (fuel + 1) turn r grown = some (r.1, r.2, grown) := by
  unfold growLoop
  rw [if_neg]
  rintro (h | h)
  · exact hne h
  · omega

theorem growLoop_again {malloc : Nat → Bool} {turn fuel : Nat} {r : Int × Hto} {grown : Bool}
    (hgt : r.1 > maxtry) : growLoop sc key val maxtry malloc (fuel + 1) turn r grown =
      growLoop sc key val maxtry malloc fuel (turn + 1)
        (htoSet sc ((htoRehash sc (some r.2) 200 (malloc turn)).1.getD r.2) key val)
        (grown && (htoRehash sc (some r.2) 200 (malloc turn)).1.isSome) := by
  rw [growLoop, if_pos (.inr hgt)]
  simp only [htoRehash_pht, Option.getD_some]

theorem Sets.shape {r : Int × Hto} (hs : Sets sc ht key val r) : SameShape ht r.2 := by
  cases hs <;> exact ⟨rfl, rfl⟩

/-- When tables of this size are not replaced any more and the place of the key is too
far, the loop does not end. -/
theorem growLoop_stuck {malloc : Nat → Bool} {u turn size : Nat} {r : Int × Hto} (fuel : Nat)
    (grown : Bool) (hkey : key ≠ .keyFreed)
    (hno : ∀ i, turn ≤ i → ∀ t : Hto, t.size = size →
      (htoRehash sc (some t) 200 (malloc i)).1 = none)
    (hsize : r.2.size = size) (hgt : r.1 > maxtry) (hu : Settled sc r.2 key u)
    (hfar : maxtry < u) : growLoop sc key val maxtry malloc fuel turn r grown = none := by
  induction fuel generalizing turn r grown with
  | zero => rfl
  | succ fuel ih =>
    obtain ⟨hret, hsettled⟩ := hu.set hkey val
    have hs : Sets sc r.2 key val (htoSet sc r.2 key val) := htoSet_sets hkey val
    rw [growLoop_again hgt, hno turn (Nat.le_refl turn) r.2 hsize, Option.getD_none]
    refine ih _ (fun i hi => hno i (by omega)) (hs.shape.size.trans hsize) ?_ hsettled
    rw [hret]
    exact Int.ofNat_lt.mpr hfar

/-- `hto_set_grow` ends for every outcome of the allocations exactly when the key is
near. -/
theorem htoSetGrow_ends_iff (sc : Bool) (ht : Hto) (key : Key) (val : BitVec 32) (maxtry : Nat) :
    (∀ malloc, GrowEnds sc malloc ht key val maxtry) ↔
      key = .keyFreed ∨ Near sc ht key val maxtry := by
  by_cases hkey : key = .keyFreed
  · refine iff_of_true (fun malloc => ⟨1, ?_⟩) (.inl hkey)
    have hret : (htoSet sc ht key val).1 = -2 := by rw [htoSet, if_pos hkey]
    unfold htoSetGrow
    rw [growLoop_done (by omega) (by omega)]
    rfl
  have hs : Sets sc ht key val (htoSet sc ht key val) := htoSet_sets hkey val
  constructor
  · intro hends
    refine .inr ⟨fun hfar => ?_, fun hlate newHt hnew hfar => ?_⟩
    · -- no block is ever given
      obtain ⟨u, hf, hsettled, -⟩ := hs.settled hkey (hs.nonneg_iff.1.mpr hfar.1)
      obtain ⟨fuel, hend⟩ := hends fun _ => false
      unfold htoSetGrow at hend
      rw [growLoop_stuck fuel true hkey (fun _ _ _ _ => htoRehash_fails) rfl (hs.gt_iff.mpr (.inl hfar)) hsettled
        (hf.far_iff.mp hfar)] at hend
      exact absurd hend (by simp)
    · -- one block is given
      have hs' : Sets sc newHt key val (htoSet sc newHt key val) := htoSet_sets hkey val
      obtain ⟨u, hf, hsettled, -⟩ := hs'.settled hkey (hs'.nonneg_iff.1.mpr hfar.1)
      obtain ⟨fuel, hend⟩ := hends fun i => i = 0
      have hgt := hs.gt_iff.mpr (.inr hlate)
      have hno : ∀ i, 1 ≤ i → ∀ t : Hto, t.size = (htoSet sc newHt key val).2.size →
          (htoRehash sc (some t) 200 (decide (i = 0))).1 = none := by
        intro i hi t _
        rw [decide_eq_false (by omega), htoRehash_fails]
      unfold htoSetGrow at hend
      cases fuel with
      | zero => exact absurd hend (by simp [growLoop])
      | succ fuel =>
        rw [growLoop_again hgt, decide_eq_true rfl, hnew, Option.getD_some,
          growLoop_stuck fuel _ hkey hno rfl (hs'.gt_iff.mpr (.inl hfar)) hsettled
            (hf.far_iff.mp hfar)] at hend
        exact absurd hend (by simp)
  · rintro (h | ⟨hfar, hlate⟩) malloc
    · exact absurd h hkey
    by_cases hgt : (htoSet sc ht key val).1 > maxtry
    · -- the key has been moved nearer
      have hlate' : FoundLate sc ht key maxtry := (hs.gt_iff.mp hgt).resolve_left hfar
      obtain ⟨n, hn, -, hhold, -⟩ := id hlate'
      obtain ⟨u, hf, hsettled, -⟩ :=
        hs.settled hkey (hs.nonneg_iff.1.mpr ⟨n, hn, hhold.welcomes⟩)
      refine ⟨2, ?_⟩
      unfold htoSetGrow
      rw [growLoop_again hgt]
      cases hnew : (htoRehash sc (some (htoSet sc ht key val).2) 200 (malloc 0)).1 with
      | none =>
        have hret := (hsettled.set hkey val).1
        have hle : ¬ maxtry < u := fun h => hfar (hf.far_iff.mpr h)
        rw [Option.getD_none, growLoop_done (by omega) (by omega)]
        rfl
      | some newHt =>
        have hmalloc : malloc 0 = true := by
          by_contra hno
          rw [Bool.eq_false_iff.mpr hno, htoRehash_fails] at hnew
          exact absurd hnew (by simp)
        have hfar' := hlate hlate' newHt (hmalloc ▸ hnew)
        have hfree : NoFreed newHt := htoRehash_noFreed hnew
        have hs' : Sets sc newHt key val (htoSet sc newHt key val) := htoSet_sets hkey val
        have hle : ¬ (htoSet sc newHt key val).1 > maxtry := by
          rw [hs'.gt_iff]
          rintro (h | h)
          · exact hfar' h
          · exact hfar' (hfree.far_of_foundLate h)
        rw [Option.getD_some, growLoop_done (by omega) hs'.nonneg_iff.2]
        rfl
    · refine ⟨1, ?_⟩
      unfold htoSetGrow
      rw [growLoop_done (by omega) hs.nonneg_iff.2]
      rfl

/-- A pointer whose first try comes to the slot of the pointer 1 among 509 slots. -/
def clashPtr : Key := .ptr ⟨391, by decide, by decide⟩

/-- A table of 509 slots is not doubled: the new one would pass one page. -/
theorem htoRehash_limit {sc malloc : Bool} {t : Hto} (ht : t.size = 509) :
    (htoRehash sc (some t) 200 malloc).1 = none := by
  cases htab : rehashTable t 200 malloc with
  | none =>
    simp only [htoRehash, htab, if_neg (show ¬ (200 : BitVec 32) = 0 by decide)]
  | some newHt =>
    obtain ⟨hrep, -⟩ := rehashTable_eq_some (by decide) htab
    have hsize : rehashSize t 200 = 1018 := by
      unfold rehashSize
      rw [ht]
      rfl
    have hprime : largestPrime 1018 = 1013 := by decide +kernel
    have hbytes := hrep.bytes
    rw [hrep.size, hsize, hprime] at hbytes
    omega

/-- The pointer 391 clashes with the pointer 1 in a table of 509 slots, which cannot be
doubled: with `maxtry` 0 the loop never ends. -/
theorem hto_set_grow_hangs :
    ∃ ht, htoCreate 509 1 = some ht ∧ Reached false (htoSet false ht (smallPtr 0) 1).2 ∧
      ∀ malloc, ¬ GrowEnds false malloc (htoSet false ht (smallPtr 0) 1).2 clashPtr 1 0 := by
  obtain ⟨ht, hc⟩ : ∃ ht, htoCreate 509 1 = some ht := ⟨_, rfl⟩
  obtain ⟨htype, hsize, -⟩ := htoCreate_spec hc
  have hprime : largestPrime 509 = 509 := by decide +kernel
  rw [hprime] at hsize
  have hfits : (smallPtr 0).Fits ht.type := by
    rw [htype]
    trivial
  have hstart : Reached false ht := .create (by decide) (by rw [hprime]; decide) hc
  have hall : ((htoCreate 509 1).map fun ht =>
      ((htoSet false (htoSet false ht (smallPtr 0) 1).2 clashPtr 1).1,
        (htoSet false (htoSet false (htoSet false ht (smallPtr 0) 1).2 clashPtr 1).2
          clashPtr 1).1)) = some (1, 1) := by
    decide +kernel
  rw [hc, Option.map_some, Option.some.injEq] at hall
  rw [Prod.mk.injEq] at hall
  obtain ⟨hfirst, hagain⟩ := hall
  refine ⟨ht, hc, .set 1 hstart hfits, ?_⟩
  rintro malloc ⟨fuel, hend⟩
  have hone : Sets false ht (smallPtr 0) 1 (htoSet false ht (smallPtr 0) 1) :=
    htoSet_sets (by decide) 1
  obtain ⟨t, ht'⟩ : ∃ t, t = (htoSet false ht (smallPtr 0) 1).2 := ⟨_, rfl⟩
  rw [← ht'] at hfirst hagain hend
  have hs : Sets false t clashPtr 1 (htoSet false t clashPtr 1) := htoSet_sets (by decide) 1
  have hsize' : (htoSet false t clashPtr 1).2.size = 509 := by
    rw [hs.shape.size, ht', hone.shape.size, hsize]
    rfl
  have hgt : (htoSet false t clashPtr 1).1 > (0 : Nat) := by
    rw [hfirst]
    decide
  obtain ⟨u, -, hsettled, -⟩ := hs.settled (by decide) (by rw [hfirst]; decide)
  have hu : u = 1 := Int.ofNat.inj ((hsettled.set (by decide) 1).1.symm.trans hagain)
  unfold htoSetGrow at hend
  rw [growLoop_stuck fuel true (by decide) (fun _ _ _ h => htoRehash_limit h) hsize' hgt hsettled
    (by omega)] at hend
  exact absurd hend (by simp)
/-! ## What `hto_set_grow` binds -/

/-- `hto_set_grow` has returned `nbtry`: the key has been bound within `maxtry` tries, and
`hto_get` of every other key is what it was. -/
structure GrowBinds (sc : Bool) (ht : Hto) (key : Key) (val : BitVec 32) (maxtry : Nat)
    (nbtry : Int) (ht' : Hto) : Prop where
  nonneg : 0 ≤ nbtry
  le : nbtry ≤ maxtry
  bound : (htoGet sc ht' key).1 = val
  others : ∀ k, k.Asked ht.type → k ≠ key → (htoGet sc ht' k).1 = (htoGet sc ht k).1

/-- Each live key but `key` whose value is not `NULL` finds a place among `n` slots. -/
def KeepsOthers (sc : Bool) (ht : Hto) (key : Key) (n : Nat) : Prop :=
  ∀ h, h < ht.size → (ht.bucket h).key ≠ .null → (ht.bucket h).key ≠ .keyFreed →
    (ht.bucket h).key ≠ key → (ht.bucket h).val ≠ 0 → (ht.bucket h).key ∉ lostKeys sc ht n

/-- Each `hto_set` of the loop has room for the key, and each `hto_rehash` keeps the other
keys. -/
def GrowKeeps (sc : Bool) (key : Key) (val : BitVec 32) (maxtry : Nat) : Nat → Hto → Prop
  | 0, _ => True
  | fuel + 1, ht => HasRoom sc ht key ∧
      (Far sc ht key maxtry ∨ FoundLate sc ht key maxtry → ∀ newHt,
        (htoRehash sc (some (htoSet sc ht key val).2) 200 true).1 = some newHt →
          KeepsOthers sc (htoSet sc ht key val).2 key newHt.size ∧
            GrowKeeps sc key val maxtry fuel newHt)

variable {m : Key → Option (BitVec 32)}

theorem HtoInv.keepsOthers_iff (hi : HtoInv sc ht m) : KeepsOthers sc ht key n ↔
    ∀ k ∈ lostKeys sc ht n, k ≠ key → (m k).getD 0 = 0 :=
  hi.lost_iff (· ≠ key)

/-- A table that `hto_rehash` has replaced. -/
theorem HtoInv.doubled {malloc : Bool} {newHt : Hto} (hi : HtoInv sc ht m)
    (hr : (htoRehash sc (some ht) 200 malloc).1 = some newHt) :
    (htoRehash sc (some ht) 200 true).1 = some newHt ∧
      HtoInv sc newHt (kept m (lostKeys sc ht newHt.size)) ∧ newHt.type = ht.type := by
  have hmalloc : malloc = true := by
    by_contra hno
    rw [Bool.eq_false_iff.mpr hno, htoRehash_fails] at hr
    exact absurd hr (by simp)
  subst hmalloc
  refine ⟨hr, ?_⟩
  cases htab : rehashTable ht 200 true with
  | none =>
    simp only [htoRehash, htab, if_neg (show ¬ (200 : BitVec 32) = 0 by decide)] at hr
    exact absurd hr (by simp)
  | some t =>
    obtain ⟨t', heq, hinv, htype, hsize, -⟩ := hi.rehash (by decide) htab
    rw [heq, Option.some.injEq] at hr
    subst hr
    rw [hsize]
    exact ⟨hinv, htype⟩

/-- Once an `hto_rehash` has failed, the loop says so. -/
theorem growLoop_grown {malloc : Nat → Bool} {fuel turn : Nat} {r : Int × Hto} {nbtry : Int}
    {grown : Bool}
    (h : growLoop sc key val maxtry malloc fuel turn r grown = some (nbtry, ht', true)) :
    grown = true := by
  induction fuel generalizing turn r grown with
  | zero => exact absurd h (by simp [growLoop])
  | succ fuel ih =>
    unfold growLoop at h
    split at h
    · exact (Bool.and_eq_true_iff.mp (ih h)).1
    · simp only [Option.some.injEq, Prod.mk.injEq] at h
      exact h.2.2

/-- The tables of the loop are maps, and no other key gets in. -/
theorem HtoInv.growLoop_absent {malloc : Nat → Bool} {fuel turn : Nat} {r : Int} {grown : Bool}
    {ok : Bool} (hi : HtoInv sc ht m) (hk : key.Fits ht.type)
    (h : growLoop sc key val maxtry malloc fuel turn (htoSet sc ht key val) grown =
      some (r, ht', ok)) :
    ∃ m', HtoInv sc ht' m' ∧ ht'.type = ht.type ∧ ∀ k, k ≠ key → m k = none → m' k = none := by
  induction fuel generalizing turn ht m grown with
  | zero => exact absurd h (by simp [growLoop])
  | succ fuel ih =>
    obtain ⟨hset, hshape⟩ := hi.set hk val
    have hnone : ∀ k, k ≠ key → m k = none →
        (if 0 ≤ (htoSet sc ht key val).1 then Function.update m key (some val) else m) k =
          none := by
      intro k hne hm
      split
      · rw [Function.update_of_ne hne, hm]
      · exact hm
    by_cases hgt : (htoSet sc ht key val).1 > maxtry
    · rw [growLoop_again hgt] at h
      cases hnew : (htoRehash sc (some (htoSet sc ht key val).2) 200 (malloc turn)).1 with
      | none =>
        rw [hnew, Option.getD_none] at h
        obtain ⟨m', hinv, htype, habsent⟩ := ih hset (hshape.type.symm ▸ hk) h
        exact ⟨m', hinv, htype.trans hshape.type, fun k hne hm =>
          habsent k hne (hnone k hne hm)⟩
      | some newHt =>
        rw [hnew, Option.getD_some] at h
        obtain ⟨-, hinv₁, htype₁⟩ := hset.doubled hnew
        obtain ⟨m', hinv, htype, habsent⟩ := ih hinv₁
          ((htype₁.trans hshape.type).symm ▸ hk) h
        refine ⟨m', hinv, htype.trans (htype₁.trans hshape.type), fun k hne hm =>
          habsent k hne ?_⟩
        rw [kept, hnone k hne hm, ite_self]
    · have hne : (htoSet sc ht key val).1 ≠ -1 := (htoSet_sets hk.ne_keyFreed val).nonneg_iff.2
      rw [growLoop_done (by omega) hne, Option.some.injEq, Prod.mk.injEq, Prod.mk.injEq] at h
      obtain ⟨-, rfl, -⟩ := h
      exact ⟨_, hset, hshape.type, hnone⟩

/-- A step of the loop that goes on with the table `newHt`. -/
theorem growKeeps_again {fuel : Nat} {newHt : Hto} (hroom : HasRoom sc ht key)
    (hlate : Far sc ht key maxtry ∨ FoundLate sc ht key maxtry)
    (hnew : (htoRehash sc (some (htoSet sc ht key val).2) 200 true).1 = some newHt) :
    GrowKeeps sc key val maxtry (fuel + 1) ht ↔
      KeepsOthers sc (htoSet sc ht key val).2 key newHt.size ∧
        GrowKeeps sc key val maxtry fuel newHt := by
  constructor
  · exact fun hall => hall.2 hlate newHt hnew
  · intro hall
    refine ⟨hroom, fun _ newHt' hnew' => ?_⟩
    rw [hnew, Option.some.injEq] at hnew'
    exact hnew' ▸ hall

/-- When what is lost has no value, the other keys have the same values before and
after. -/
theorem getD_kept {lostKs : List Key}
    (hzero : ∀ k ∈ lostKs, k ≠ key → (m k).getD 0 = 0) {k : Key} (hne : k ≠ key) :
    (kept (Function.update m key (some val)) lostKs k).getD 0 = (m k).getD 0 := by
  unfold kept
  split
  · rename_i hl
    exact (hzero k hl hne).symm
  · rw [Function.update_of_ne hne]

/-- The loop binds the key and keeps the other keys of the map `m` exactly when its steps
do. -/
theorem HtoInv.growLoop_iff {malloc : Nat → Bool} {fuel turn : Nat} {r : Int}
    (hi : HtoInv sc ht m) (hk : key.Fits ht.type)
    (h : growLoop sc key val maxtry malloc fuel turn (htoSet sc ht key val) true =
      some (r, ht', true)) :
    (0 ≤ r ∧ r ≤ maxtry ∧ (htoGet sc ht' key).1 = val ∧
      ∀ k, k.Asked ht.type → k ≠ key → (htoGet sc ht' k).1 = (m k).getD 0) ↔
      GrowKeeps sc key val maxtry fuel ht := by
  induction fuel generalizing turn ht m with
  | zero => exact absurd h (by simp [growLoop])
  | succ fuel ih =>
    have hs : Sets sc ht key val (htoSet sc ht key val) := htoSet_sets hk.ne_keyFreed val
    obtain ⟨hset, hshape⟩ := hi.set hk val
    by_cases hgt : (htoSet sc ht key val).1 > maxtry
    · have hroom : HasRoom sc ht key := hs.nonneg_iff.1.mp (by omega)
      have hlate := hs.gt_iff.mp hgt
      rw [if_pos (hs.nonneg_iff.1.mpr hroom)] at hset
      rw [growLoop_again hgt] at h
      have hsome := growLoop_grown h
      rw [Bool.true_and, Option.isSome_iff_exists] at hsome
      obtain ⟨newHt, hnew⟩ := hsome
      rw [hnew, Option.getD_some] at h
      obtain ⟨hnew', hinv, htype⟩ := hset.doubled hnew
      have hk' : key.Fits newHt.type := (htype.trans hshape.type).symm ▸ hk
      have hih := ih hinv hk' h
      rw [htype, hshape.type] at hih
      have hothers : KeepsOthers sc (htoSet sc ht key val).2 key newHt.size ↔
          ∀ k ∈ lostKeys sc (htoSet sc ht key val).2 newHt.size, k ≠ key → (m k).getD 0 = 0 := by
        rw [hset.keepsOthers_iff]
        refine forall₂_congr fun k _ => forall_congr' fun hne => ?_
        rw [Function.update_of_ne hne]
      rw [growKeeps_again hroom hlate hnew', hothers, ← hih]
      constructor
      · rintro ⟨h0, hle, hbound, hkeep⟩
        -- a lost key does not come back, so it had no value
        have hzero : ∀ k ∈ lostKeys sc (htoSet sc ht key val).2 newHt.size, k ≠ key →
            (m k).getD 0 = 0 := by
          intro k hl hne
          obtain ⟨m', hinv', htype', habsent⟩ := hinv.growLoop_absent hk' h
          have hnone : m' k = none := habsent k hne (by rw [kept, if_pos hl])
          obtain ⟨v, hv⟩ := Option.ne_none_iff_exists'.mp
            ((mem_keys hset).mp (lost_subset _ _ k hl))
          obtain ⟨p, -, hlive⟩ := (hset.maps k v).mpr hv
          have hasked : k.Asked ht.type := hshape.type ▸ (hset.fits p k v hlive).asked
          have htype₂ : ht'.type = ht.type := htype'.trans (htype.trans hshape.type)
          rw [← hkeep k hasked hne, hinv'.get_asked (htype₂.symm ▸ hasked), hnone]
          rfl
        exact ⟨hzero, h0, hle, hbound, fun k hasked hne =>
          (hkeep k hasked hne).trans (getD_kept hzero hne).symm⟩
      · rintro ⟨hzero, h0, hle, hbound, hkeep⟩
        exact ⟨h0, hle, hbound, fun k hasked hne =>
          (hkeep k hasked hne).trans (getD_kept hzero hne)⟩
    · have hnot : ¬ (Far sc ht key maxtry ∨ FoundLate sc ht key maxtry) :=
        fun hlate => hgt (hs.gt_iff.mpr hlate)
      rw [growLoop_done (by omega) hs.nonneg_iff.2, Option.some.injEq, Prod.mk.injEq,
        Prod.mk.injEq] at h
      obtain ⟨rfl, rfl, -⟩ := h
      constructor
      · exact fun hbinds => ⟨hs.nonneg_iff.1.mp hbinds.1, fun hlate => absurd hlate hnot⟩
      · rintro ⟨hroom, -⟩
        have h0 := hs.nonneg_iff.1.mpr hroom
        rw [if_pos h0] at hset
        have hk' : key.Fits (htoSet sc ht key val).2.type := hshape.type.symm ▸ hk
        refine ⟨h0, by omega, ?_, fun k hasked hne => ?_⟩
        · rw [(hset.get hk').1, Function.update_self]
          rfl
        · rw [hset.get_asked (hshape.type.symm ▸ hasked), Function.update_of_ne hne]

end

/-- When `hto_set_grow` returns and no `hto_rehash` has failed, it binds the key and keeps
the other keys exactly when each `hto_set` of its loop has room for the key and each
`hto_rehash` keeps the others. -/
theorem htoSetGrow_binds_iff {sc : Bool} {ht ht' : Hto} {key : Key} {val : BitVec 32}
    {maxtry fuel : Nat} {malloc : Nat → Bool} {nbtry : Int} (hr : Reached sc ht)
    (hk : key.Fits ht.type)
    (h : htoSetGrow sc key val maxtry malloc fuel ht = some (nbtry, ht', true)) :
    GrowBinds sc ht key val maxtry nbtry ht' ↔ GrowKeeps sc key val maxtry fuel ht := by
  obtain ⟨m, hi⟩ := hr.htoInv
  rw [← hi.growLoop_iff hk h]
  constructor
  · intro hb
    exact ⟨hb.nonneg, hb.le, hb.bound, fun k hasked hne => by
      rw [hb.others k hasked hne, hi.get_asked hasked]⟩
  · rintro ⟨h0, hle, hbound, hothers⟩
    exact ⟨h0, hle, hbound, fun k hasked hne => by
      rw [hothers k hasked hne, hi.get_asked hasked]⟩

/-- The pointer 6 is too far in a table of five slots with four pointers, and is bound in
seven slots. -/
theorem htoSetGrow_binds_six :
    ∃ ht ht', htoCreate 5 1 = some ht ∧
      htoSetGrow false (smallPtr 5) 9 1 (fun _ => true) 2 (fourPtrs ht) = some (0, ht', true) ∧
      GrowBinds false (fourPtrs ht) (smallPtr 5) 9 1 0 ht' := by
  obtain ⟨ht, hc⟩ : ∃ ht, htoCreate 5 1 = some ht := ⟨_, rfl⟩
  have hall : ((htoCreate 5 1).map fun ht => ((fourPtrs ht).type,
      (htoSet false (fourPtrs ht) (smallPtr 5) 9).1,
      (lostKeys false (htoSet false (fourPtrs ht) (smallPtr 5) 9).2 7).length,
      (htoRehash false (some (htoSet false (fourPtrs ht) (smallPtr 5) 9).2) 200 true).1.map
        fun t => (t.size, (htoSet false t (smallPtr 5) 9).1))) =
      some (.pointer, 2, 0, some (7, 0)) := by
    decide +kernel
  rw [hc, Option.map_some, Option.some.injEq] at hall
  simp only [Prod.mk.injEq] at hall
  obtain ⟨htype, hfirst, hlost, hnew⟩ := hall
  obtain ⟨t, hret, ht'⟩ := Option.map_eq_some_iff.mp hnew
  obtain ⟨hsize, hzero⟩ := Prod.mk.inj ht'
  have hs : Sets false (fourPtrs ht) (smallPtr 5) 9 (htoSet false (fourPtrs ht) (smallPtr 5) 9) :=
    htoSet_sets (by decide) 9
  have hs' : Sets false t (smallPtr 5) 9 (htoSet false t (smallPtr 5) 9) :=
    htoSet_sets (by decide) 9
  have hrun : htoSetGrow false (smallPtr 5) 9 1 (fun _ => true) 2 (fourPtrs ht) =
      some (0, (htoSet false t (smallPtr 5) 9).2, true) := by
    unfold htoSetGrow
    rw [growLoop_again (by rw [hfirst]; decide), hret, Option.getD_some,
      growLoop_done (by rw [hzero]; decide) (by rw [hzero]; decide), hzero]
    rfl
  have hfits : (smallPtr 5).Fits (fourPtrs ht).type := by
    rw [htype]
    trivial
  have hr : Reached false (fourPtrs ht) := reached_fourPtrs (by decide) (by decide) hc
  refine ⟨ht, _, hc, hrun, (htoSetGrow_binds_iff hr hfits hrun).mpr ?_⟩
  refine ⟨hs.nonneg_iff.1.mp (by rw [hfirst]; decide), fun _ newHt hnew => ?_⟩
  obtain rfl := Option.some.inj (hret.symm.trans hnew)
  refine ⟨fun h _ _ _ _ _ hmem => ?_, hs'.nonneg_iff.1.mp (by rw [hzero]),
    fun hlate => ?_⟩
  · rw [hsize, List.eq_nil_of_length_eq_zero hlost] at hmem
    exact absurd hmem (by simp)
  · have hgt : (htoSet false t (smallPtr 5) 9).1 > (1 : Nat) := hs'.gt_iff.mpr hlate
    rw [hzero] at hgt
    exact absurd hgt (by decide)
/-- A table of three slots is full with the pointers 1 to 3, and `hto_set_grow` returns
-ENOSPC for the pointer 4 instead of growing it. -/
theorem hto_set_grow_full :
    ∃ ht, htoCreate 3 1 = some ht ∧ Reached false (fourPtrs ht) ∧
      ∃ ht', htoSetGrow false (smallPtr 3) 9 1 (fun _ => true) 1 (fourPtrs ht) =
        some (-enospc, ht', true) ∧
      ¬ GrowBinds false (fourPtrs ht) (smallPtr 3) 9 1 (-enospc) ht' := by
  obtain ⟨ht, hc⟩ : ∃ ht, htoCreate 3 1 = some ht := ⟨_, rfl⟩
  have hall : ((htoCreate 3 1).map fun ht =>
      (htoSet false (fourPtrs ht) (smallPtr 3) 9).1) = some (-enospc) := by
    decide +kernel
  rw [hc, Option.map_some, Option.some.injEq] at hall
  refine ⟨ht, hc, reached_fourPtrs (by decide) (by decide) hc,
    (htoSet false (fourPtrs ht) (smallPtr 3) 9).2, ?_, fun hb => ?_⟩
  · unfold htoSetGrow
    rw [growLoop_done (by rw [hall]; decide) (by rw [hall]; decide), hall]
  · exact absurd hb.nonneg (by decide)

end Ko6.Common
