import Ko6.Common.Lists

set_option autoImplicit false

/-!
# Kernel: the device registry of `kernel/kdev.c`

A device is an object of the kernel heap with a tag and a minor number, and an item of
the list `DevList`.  The minor number of a new device is one more than that of the last
device of its tag in the list.  A device may be taken out of the list at any time; new
ones go to the end, so the numbers of one tag keep increasing along the list.

A device is named by its address.  Which address `kmalloc` gives is up to the heap: it
is one that is not in use.  The data behind the descriptor belong to the drivers.
-/

namespace Ko6.Kernel

open Ko6.Lib Ko6.Common

/-! ## Data -/

/-- `dev_tag_t`. -/
inductive DevTag where
  | blockDev | charDev | icuDev | dmaDev | timerDev
  deriving DecidableEq

/-- The fields `tag` and `minor` of `struct device_s`. -/
structure Device where
  tag : DevTag
  minor : BitVec 32

/-- A `list_t`: `DevList`, or the field `list` of a device. -/
inductive DevCell where
  | devList
  | list (dev : Nat)
  deriving DecidableEq

/-- `list_item (item, device_t, list)`, for an item of the list. -/
def DevCell.device : DevCell → Nat
  | .list dev => dev
  | .devList => 0

/-- The memory of the registry; `given` are the objects that `kmalloc` has given and
that are not freed. -/
structure Kdev where
  device : Nat → Device
  next : DevCell → DevCell
  prev : DevCell → DevCell
  given : Nat → Bool

/-- The cells of the registry. -/
def devCells : CellStore Kdev DevCell where
  IsCell _ := True
  next s := s.next
  prev s := s.prev
  setNext s a v := { s with next := Function.update s.next a v }
  setPrev s a v := { s with prev := Function.update s.prev a v }
  next_setNext s a v _ _ := Function.update_self a v s.next
  next_setNext_ne s _ _ v _ _ hne := Function.update_of_ne hne v s.next
  prev_setNext _ _ _ _ _ _ := rfl
  prev_setPrev s a v _ _ := Function.update_self a v s.prev
  prev_setPrev_ne s _ _ v _ _ hne := Function.update_of_ne hne v s.prev
  next_setPrev _ _ _ _ _ _ := rfl

/-- The registry at the start of the system, with the static initial value of
`DevList`. -/
def kdevInit (device : Nat → Device) : Kdev where
  device := device
  next _ := .devList
  prev _ := .devList
  given _ := false

/-! ## Functions

The loops go round the list once at most; `fuel` is a bound for their rounds, and `none`
says that a loop has not ended within it. -/

section
variable (fuel : Nat)

/-- `dev_next_minor`. -/
def devNextMinor (s : Kdev) (tag : DevTag) : Option (BitVec 32) := do
  let item ← listSearchRev devCells fuel (fun item => (s.device item.device).tag = tag) s .devList
  match item with
  | some item => some ((s.device item.device).minor + 1)
  | none => some 0

/-- `dev_alloc`, with `dev` the object that `kmalloc` gives. -/
def devAlloc (s : Kdev) (tag : DevTag) (dev : Nat) : Option Kdev := do
  let s := { s with given := Function.update s.given dev true }
  let s := { s with device := Function.update s.device dev { s.device dev with tag := tag } }
  let minor ← devNextMinor fuel s tag
  let s := { s with device := Function.update s.device dev { s.device dev with minor := minor } }
  some (listAddlast devCells s .devList (.list dev))

/-- `dev_get`, with `some none` for `NULL`. -/
def devGet (s : Kdev) (tag : DevTag) (minor : BitVec 32) : Option (Option Nat) := do
  let item ← listSearch devCells fuel (fun item =>
    (s.device item.device).tag = tag ∧ (s.device item.device).minor = minor) s .devList
  some (item.map DevCell.device)

end

/-- `dev_free`. -/
def devFree (s : Kdev) (dev : Nat) : Kdev :=
  let s := listUnlink devCells s (.list dev)
  { s with given := Function.update s.given dev false }

/-! ## Runs -/

/-- A call that changes the registry. -/
inductive KdevOp where
  | alloc (tag : DevTag) (dev : Nat)
  | free (dev : Nat)

/-- `kmalloc` gives an object that is not in use; a live device is freed. -/
def KdevOp.Ok (s : Kdev) : KdevOp → Prop
  | .alloc _ dev => s.given dev = false
  | .free dev => s.given dev = true

/-- The call. -/
def kdevDo (fuel : Nat) (s : Kdev) : KdevOp → Option Kdev
  | .alloc tag dev => devAlloc fuel s tag dev
  | .free dev => some (devFree s dev)

/-- The calls, one after another. -/
def kdevRun (fuel : Nat) : List KdevOp → Kdev → Option Kdev
  | [], s => some s
  | op :: ops, s => (kdevDo fuel s op).bind (kdevRun fuel ops)

/-- Every call finds the state it needs. -/
def KdevPermitted (fuel : Nat) : List KdevOp → Kdev → Prop
  | [], _ => True
  | op :: ops, s => op.Ok s ∧ ∀ s', kdevDo fuel s op = some s' → KdevPermitted fuel ops s'

instance (s : Kdev) : (op : KdevOp) → Decidable (op.Ok s)
  | .alloc _ _ => inferInstanceAs (Decidable (_ = _))
  | .free _ => inferInstanceAs (Decidable (_ = _))

instance KdevPermitted.decidable (fuel : Nat) :
    (ops : List KdevOp) → (s : Kdev) → Decidable (KdevPermitted fuel ops s)
  | [], _ => .isTrue trivial
  | op :: ops, s =>
    have : Decidable (∀ s', kdevDo fuel s op = some s' → KdevPermitted fuel ops s') :=
      match kdevDo fuel s op with
      | none => .isTrue fun _ h => nomatch h
      | some s₁ =>
        have := KdevPermitted.decidable fuel ops s₁
        decidable_of_iff (KdevPermitted fuel ops s₁)
          ⟨fun h _ hs => Option.some.inj hs ▸ h, fun h => h s₁ rfl⟩
    inferInstanceAs (Decidable (_ ∧ _))

/-- The call is a `dev_alloc` of the tag. -/
def KdevOp.Allocs (tag : DevTag) : KdevOp → Bool
  | .alloc tag' _ => tag' = tag
  | .free _ => false

/-! ## What the registry is -/

/-- The registry: the live devices with their tags and minor numbers, in the order of
the list. -/
structure Registry (fuel : Nat) (s : Kdev) (devs : List Nat) : Prop where
  /-- The list has the live devices. -/
  list : Rep devCells s .devList (devs.map .list)
  live : ∀ dev, s.given dev = true ↔ dev ∈ devs
  /-- No two live devices have one pair of tag and minor number. -/
  distinct : ∀ dev dev', s.given dev = true → s.given dev' = true →
    (s.device dev).tag = (s.device dev').tag → (s.device dev).minor = (s.device dev').minor →
    dev = dev'
  /-- `dev_get` finds the live device of a pair, if there is one. -/
  found : ∀ tag minor dev, devGet fuel s tag minor = some (some dev) ↔
    s.given dev = true ∧ (s.device dev).tag = tag ∧ (s.device dev).minor = minor
  absent : ∀ tag minor, devGet fuel s tag minor = some none ↔
    ∀ dev, s.given dev = true → ¬ ((s.device dev).tag = tag ∧ (s.device dev).minor = minor)
  /-- The minor numbers of a tag increase along the list. -/
  increasing : devs.Pairwise fun dev dev' =>
    (s.device dev).tag = (s.device dev').tag → (s.device dev).minor < (s.device dev').minor

/-! ## The invariant -/

/-- The list `devs` is in memory, its minor numbers increase, and those of each tag are
below `bound`. -/
structure Numbered (bound : DevTag → Nat) (s : Kdev) (devs : List Nat) : Prop where
  list : Rep devCells s .devList (devs.map .list)
  increasing : devs.Pairwise fun dev dev' =>
    (s.device dev).tag = (s.device dev').tag → (s.device dev).minor < (s.device dev').minor
  bounded : ∀ dev ∈ devs, (s.device dev).minor.toNat < bound (s.device dev).tag

/-- Between two calls, the devices of the list are the live ones. -/
structure KdevInv (bound : DevTag → Nat) (s : Kdev) (devs : List Nat) : Prop
    extends Numbered bound s devs where
  live : ∀ dev, s.given dev = true ↔ dev ∈ devs

section
variable {fuel : Nat} {bound bound' : DevTag → Nat} {s s' : Kdev} {devs : List Nat} {dev : Nat}
  {tag : DevTag} {minor : BitVec 32}

theorem kdevInv_init (device : Nat → Device) : KdevInv (fun _ => 0) (kdevInit device) [] where
  list := ⟨isRing_nil rfl rfl, fun _ _ => trivial⟩
  increasing := List.Pairwise.nil
  bounded := by simp
  live dev := by simp [kdevInit]

/-- The order of a list looks at the devices of the list alone. -/
theorem Numbered.congr (hn : Numbered bound s devs)
    (hlist : Rep devCells s' .devList (devs.map .list))
    (hdev : ∀ dev ∈ devs, s'.device dev = s.device dev) : Numbered bound s' devs where
  list := hlist
  increasing := hn.increasing.imp_of_mem fun ha hb hab => by
    rw [hdev _ ha, hdev _ hb]
    exact hab
  bounded dev h := by
    rw [hdev dev h]
    exact hn.bounded dev h

/-- A device with a greater minor number than those of its tag goes to the end. -/
theorem Numbered.concat (hn : Numbered bound s devs)
    (hlist : Rep devCells s' .devList ((devs ++ [dev]).map .list))
    (hdev : ∀ d ∈ devs, s'.device d = s.device d)
    (hgreatest : ∀ d ∈ devs, (s.device d).tag = (s'.device dev).tag →
      (s.device d).minor < (s'.device dev).minor)
    (hlt : (s'.device dev).minor.toNat < bound' (s'.device dev).tag)
    (hle : ∀ tag, bound tag ≤ bound' tag) : Numbered bound' s' (devs ++ [dev]) where
  list := hlist
  increasing := by
    rw [List.pairwise_append]
    refine ⟨(hn.increasing.imp_of_mem fun ha hb hab => ?_), List.pairwise_singleton _ _, ?_⟩
    · rw [hdev _ ha, hdev _ hb]
      exact hab
    · intro d hd d' hd'
      rw [List.mem_singleton.mp hd', hdev d hd]
      exact hgreatest d hd
  bounded d hd := by
    rcases List.mem_append.mp hd with hd | hd
    · rw [hdev d hd]
      exact (hn.bounded d hd).trans_le (hle _)
    · rw [List.mem_singleton.mp hd]
      exact hlt

/-- A device is taken out. -/
theorem Numbered.remove {ys zs : List Nat} (hn : Numbered bound s (ys ++ dev :: zs))
    (hlist : Rep devCells s' .devList ((ys ++ zs).map .list))
    (hdev : s'.device = s.device) : Numbered bound s' (ys ++ zs) where
  list := hlist
  increasing := by
    rw [hdev]
    exact hn.increasing.sublist ((List.Sublist.refl ys).append (List.sublist_cons_self dev zs))
  bounded d hd := by
    rw [hdev]
    refine hn.bounded d ?_
    rcases List.mem_append.mp hd with hd | hd
    · exact List.mem_append_left _ hd
    · exact List.mem_append_right _ (List.mem_cons_of_mem _ hd)

/-- Two devices of the list with one tag have different minor numbers. -/
theorem Numbered.distinct (hn : Numbered bound s devs) {dev' : Nat} (h : dev ∈ devs)
    (h' : dev' ∈ devs) (htag : (s.device dev).tag = (s.device dev').tag)
    (hminor : (s.device dev).minor = (s.device dev').minor) : dev = dev' := by
  have horder := List.pairwise_iff_getElem.mp hn.increasing
  obtain ⟨i, hlt, rfl⟩ := List.mem_iff_getElem.mp h
  obtain ⟨j, hlt', rfl⟩ := List.mem_iff_getElem.mp h'
  rcases Nat.lt_trichotomy i j with hij | rfl | hij
  · have := horder i j hlt hlt' hij htag
    rw [hminor] at this
    exact absurd this (BitVec.lt_irrefl _)
  · rfl
  · have := horder j i hlt' hlt hij htag.symm
    rw [hminor] at this
    exact absurd this (BitVec.lt_irrefl _)

/-- What `dev_get` finds. -/
theorem Numbered.get (hn : Numbered bound s devs) (hfuel : devs.length < fuel) :
    devGet fuel s tag minor = some (devs.find? fun dev =>
      (s.device dev).tag = tag ∧ (s.device dev).minor = minor) := by
  unfold devGet
  rw [hn.list.search (by simpa using hfuel), List.find?_map]
  simp only [Option.bind_eq_bind, Option.bind_some, Option.map_map]
  exact congrArg some Option.map_id'

/-- The list is the registry. -/
theorem KdevInv.registry (hi : KdevInv bound s devs) (hfuel : devs.length < fuel) :
    Registry fuel s devs where
  list := hi.list
  live := hi.live
  distinct dev dev' h h' := hi.distinct ((hi.live dev).mp h) ((hi.live dev').mp h')
  found tag minor dev := by
    rw [hi.get hfuel, Option.some.injEq]
    constructor
    · intro hfind
      have hp := List.find?_some hfind
      rw [decide_eq_true_iff] at hp
      exact ⟨(hi.live dev).mpr (List.mem_of_find?_eq_some hfind), hp⟩
    · rintro ⟨hlive, htag, hminor⟩
      have hmem := (hi.live dev).mp hlive
      obtain ⟨dev', hfind⟩ : ∃ dev', (devs.find? fun dev =>
          (s.device dev).tag = tag ∧ (s.device dev).minor = minor) = some dev' := by
        rw [← Option.isSome_iff_exists, List.find?_isSome]
        exact ⟨dev, hmem, by simp [htag, hminor]⟩
      have hp := List.find?_some hfind
      rw [decide_eq_true_iff] at hp
      rw [hfind, hi.distinct (List.mem_of_find?_eq_some hfind) hmem (hp.1.trans htag.symm)
        (hp.2.trans hminor.symm)]
  absent tag minor := by
    rw [hi.get hfuel, Option.some.injEq, List.find?_eq_none]
    simp only [decide_eq_true_eq, hi.live]
  increasing := hi.increasing

/-! ## What a call does -/

/-- The last device of the tag, if there is one, has the greatest minor number of it. -/
theorem Numbered.nextMinor (hn : Numbered bound s devs) (hfuel : devs.length < fuel)
    (hbound : bound tag < 2 ^ 32) :
    ∃ minor, devNextMinor fuel s tag = some minor ∧ minor.toNat ≤ bound tag ∧
      ∀ dev ∈ devs, (s.device dev).tag = tag → (s.device dev).minor < minor := by
  unfold devNextMinor
  rw [hn.list.searchRev (by simpa using hfuel), ← List.map_reverse, List.find?_map]
  cases hfind : devs.reverse.find? ((fun item : DevCell =>
      decide ((s.device item.device).tag = tag)) ∘ DevCell.list) with
  | none =>
    rw [List.find?_eq_none] at hfind
    refine ⟨0, rfl, Nat.zero_le _, fun dev hdev htag => ?_⟩
    exact absurd (decide_eq_true htag) (hfind dev (List.mem_reverse.mpr hdev))
  | some last =>
    obtain ⟨hp, ys, zs, hsplit, hys⟩ := List.find?_eq_some_iff_append.mp hfind
    have htag : (s.device last).tag = tag := of_decide_eq_true hp
    have hdevs : devs = zs.reverse ++ last :: ys.reverse := by
      rw [← List.reverse_reverse devs, hsplit]
      simp
    have hlast : (s.device last).minor.toNat < bound tag :=
      htag ▸ hn.bounded last (by simp [hdevs])
    have hsucc : ((s.device last).minor + 1).toNat = (s.device last).minor.toNat + 1 := by
      rw [BitVec.toNat_add]
      exact Nat.mod_eq_of_lt (by simp; omega)
    refine ⟨(s.device last).minor + 1, rfl, by omega, fun dev hdev hdtag => ?_⟩
    have hle : (s.device dev).minor.toNat ≤ (s.device last).minor.toNat := by
      rw [hdevs] at hdev
      have hinc := hn.increasing
      rw [hdevs, List.pairwise_append] at hinc
      rcases List.mem_append.mp hdev with h | h
      · exact (BitVec.lt_def.mp
          (hinc.2.2 dev h last (by simp) (hdtag.trans htag.symm))).le
      rcases List.mem_cons.mp h with rfl | h
      · exact Nat.le_refl _
      · have := hys dev (List.mem_reverse.mp h)
        simp [DevCell.device, hdtag] at this
    rw [BitVec.lt_def]
    omega

/-- `dev_alloc` adds the device at the end of the list. -/
theorem KdevInv.alloc (hi : KdevInv bound s devs) (hfuel : devs.length < fuel)
    (hok : s.given dev = false) (hbound : bound tag < 2 ^ 32) (hlt : bound tag < bound' tag)
    (hle : ∀ tag, bound tag ≤ bound' tag) :
    ∃ s', devAlloc fuel s tag dev = some s' ∧ KdevInv bound' s' (devs ++ [dev]) := by
  have hnew : dev ∉ devs := fun h => by simp [(hi.live dev).mpr h] at hok
  -- the fields of the new device are no part of the list
  have hother : ∀ (s' : Kdev) (x : Device), s'.next = s.next → s'.prev = s.prev →
      s'.device = Function.update s.device dev x → Numbered bound s' devs := by
    intro s' x hnext hprev hdevice
    refine hi.toNumbered.congr (hi.list.congr (fun a _ => ?_) fun a _ => ?_) fun d hd => ?_
    · exact congrFun hnext a
    · exact congrFun hprev a
    · have hne : d ≠ dev := fun e => hnew (e ▸ hd)
      rw [hdevice, Function.update_of_ne hne]
  let s₁ : Kdev := { s with
    given := Function.update s.given dev true
    device := Function.update s.device dev { s.device dev with tag := tag } }
  have hn₁ : Numbered bound s₁ devs := hother s₁ _ rfl rfl rfl
  obtain ⟨minor, hminor, hmle, hgreatest⟩ := hn₁.nextMinor hfuel hbound
  let s₂ : Kdev := { s₁ with
    device := Function.update s₁.device dev { s₁.device dev with minor := minor } }
  have hfields : s₂.device dev = ⟨tag, minor⟩ := by
    simp only [s₂, s₁, Function.update_self]
  have hsame : ∀ d ∈ devs, s₂.device d = s₁.device d := by
    intro d hd
    have hne : d ≠ dev := fun e => hnew (e ▸ hd)
    exact Function.update_of_ne hne _ _
  have hn₂ : Numbered bound s₂ devs := hother s₂ _ rfl rfl (Function.update_idem ..)
  have hitem : DevCell.list dev ∉ DevCell.devList :: devs.map .list := by
    simpa using hnew
  have hlist : Rep devCells (listAddlast devCells s₂ .devList (.list dev)) .devList
      ((devs ++ [dev]).map .list) := by
    rw [List.map_append]
    exact hn₂.list.addlast trivial hitem
  refine ⟨listAddlast devCells s₂ .devList (.list dev), ?_, ?_, fun d => ?_⟩
  · unfold devAlloc
    change (devNextMinor fuel s₁ tag).bind _ = _
    rw [hminor]
    rfl
  · refine hn₂.concat hlist (fun _ _ => rfl) ?_ ?_ hle
    · intro d hd
      change (s₂.device d).tag = (s₂.device dev).tag →
        (s₂.device d).minor < (s₂.device dev).minor
      rw [hfields, hsame d hd]
      exact hgreatest d hd
    · change (s₂.device dev).minor.toNat < bound' (s₂.device dev).tag
      rw [hfields]
      exact hmle.trans_lt hlt
  · change Function.update s.given dev true d = true ↔ _
    rcases eq_or_ne d dev with rfl | hne
    · simp
    · rw [Function.update_of_ne hne, hi.live, List.mem_append, List.mem_singleton]
      exact ⟨.inl, fun h => h.resolve_right hne⟩

/-- `dev_free` takes the device out of the list. -/
theorem KdevInv.free (hi : KdevInv bound s devs) (hok : s.given dev = true) :
    ∃ devs', KdevInv bound (devFree s dev) devs' ∧ devs'.length ≤ devs.length := by
  obtain ⟨ys, zs, hsplit⟩ := List.append_of_mem ((hi.live dev).mp hok)
  subst hsplit
  have hlist : Rep devCells (devFree s dev) .devList ((ys ++ zs).map .list) := by
    have hrep := hi.list
    rw [List.map_append, List.map_cons] at hrep
    rw [List.map_append]
    exact hrep.unlink.congr (fun _ _ => rfl) fun _ _ => rfl
  have hnodup : (ys ++ dev :: zs).Nodup :=
    List.Nodup.of_map _ (List.nodup_cons.mp hi.list.ring.nodup).2
  refine ⟨ys ++ zs, ⟨hi.toNumbered.remove hlist rfl, fun d => ?_⟩, by simp⟩
  change Function.update s.given dev false d = true ↔ _
  rcases eq_or_ne d dev with rfl | hne
  · have hnot : d ∉ ys ++ zs := (List.nodup_cons.mp (List.nodup_middle.mp hnodup)).1
    simp [hnot]
  · rw [Function.update_of_ne hne, hi.live]
    simp [hne]

/-! ## Runs -/

/-- What a run keeps. -/
theorem KdevInv.run : ∀ (ops : List KdevOp) {bound : DevTag → Nat} {s : Kdev} {devs : List Nat},
    KdevInv bound s devs → KdevPermitted fuel ops s →
    (∀ tag, bound tag + ops.countP (KdevOp.Allocs tag) < 2 ^ 32) →
    devs.length + ops.length < fuel →
    ∃ s' devs' bound', kdevRun fuel ops s = some s' ∧ KdevInv bound' s' devs' ∧
      devs'.length ≤ devs.length + ops.length := by
  intro ops
  induction ops with
  | nil =>
    intro bound s devs hi _ _ _
    exact ⟨s, devs, bound, rfl, hi, by simp⟩
  | cons op ops ih =>
    intro bound s devs hi hperm hcount hfuel
    obtain ⟨hok, hrest⟩ := hperm
    rw [List.length_cons] at hfuel
    -- the state after the first call
    obtain ⟨s₁, devs₁, hdo, hi₁, hlen⟩ : ∃ s₁ devs₁, kdevDo fuel s op = some s₁ ∧
        KdevInv (fun tag => bound tag + [op].countP (KdevOp.Allocs tag)) s₁ devs₁ ∧
        devs₁.length ≤ devs.length + 1 := by
      cases op with
      | alloc tag dev =>
        have hbound : bound tag < 2 ^ 32 := Nat.lt_of_le_of_lt (Nat.le_add_right _ _) (hcount tag)
        have hlt : bound tag < bound tag +
            [KdevOp.alloc tag dev].countP (KdevOp.Allocs tag) := by
          simp [KdevOp.Allocs]
        have hdevs : devs.length < fuel := by omega
        obtain ⟨s₁, hdo, hi₁⟩ : ∃ s₁, devAlloc fuel s tag dev = some s₁ ∧
            KdevInv (fun tag' => bound tag' + [KdevOp.alloc tag dev].countP (KdevOp.Allocs tag'))
              s₁ (devs ++ [dev]) :=
          hi.alloc hdevs hok hbound hlt fun _ => Nat.le_add_right _ _
        exact ⟨s₁, _, hdo, hi₁, by simp⟩
      | free dev =>
        obtain ⟨devs₁, hi₁, hlen⟩ := hi.free hok
        exact ⟨_, devs₁, rfl, by simpa [KdevOp.Allocs] using hi₁, by omega⟩
    obtain ⟨s', devs', bound', hrun, hi', hlen'⟩ := ih hi₁ (hrest s₁ hdo) (fun tag => by
      have := hcount tag
      rw [List.countP_cons] at this
      rw [List.countP_singleton]
      omega) (by omega)
    refine ⟨s', devs', bound', ?_, hi', by rw [List.length_cons]; omega⟩
    rw [kdevRun, hdo, Option.bind_some]
    exact hrun

/-- After any permitted calls of `dev_alloc`, fewer than 2³² for each tag, and
`dev_free`, the registry is in order; all the loops end. -/
theorem kdevRun_registry (device : Nat → Device) (ops : List KdevOp)
    (hperm : KdevPermitted fuel ops (kdevInit device))
    (hcount : ∀ tag, ops.countP (KdevOp.Allocs tag) < 2 ^ 32) (hfuel : ops.length < fuel) :
    ∃ s devs, kdevRun fuel ops (kdevInit device) = some s ∧ Registry fuel s devs := by
  obtain ⟨s, devs, bound, hrun, hi, hlen⟩ := (kdevInv_init device).run ops hperm
    (by simpa using hcount) (by simpa using hfuel)
  exact ⟨s, devs, hrun, hi.registry (by simpa using hlen.trans_lt (by simpa using hfuel))⟩

end

/-- The registry after two terminals, of which the second goes away, and a third one. -/
theorem kdevRun_registry_ttys :
    let ops := [.alloc .charDev 8, .alloc .icuDev 16, .alloc .charDev 24, .free 24, .alloc .charDev 32]
    ∃ s devs, kdevRun 6 ops (kdevInit fun _ => ⟨.blockDev, 0⟩) = some s ∧ Registry 6 s devs := by
  intro ops
  refine kdevRun_registry _ ops ?_ (fun tag => ?_) (by decide)
  · decide +kernel
  · cases tag <;> decide

end Ko6.Kernel
