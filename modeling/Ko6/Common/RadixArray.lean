import Ko6.Common.Radix

set_option autoImplicit false

/-!
# Common: when the radix tree is an array

`radix_set` records every node it creates below slot 0 as the shortcut root of
its level, without looking at the slices above that slot.  An index such as
`0x10000` therefore replaces `root_l3` by the leaf of `0x10000..0x100FF`, and
`radix_get(rx, 0)` then reads the value stored at `0x10000`.

The module separates the two kinds of index.  `OwnPath i` holds when no slice
below the first non-zero one is zero, the last one apart; on such indices the
nodes of the tree never share a place, whatever the order of the calls, and the
tree is an array.  Every other index breaks the array property by itself.
-/

namespace Ko6.Common.Radix

/-! ## Indices by their slices -/

theorem slice_val (i k : UInt32) :
    ((i >>> k) &&& 0xFF).toNat = i.toNat / 2 ^ (k.toNat % 32) % 2 ^ 8 := by
  rw [UInt32.toNat_and, UInt32.toNat_shiftRight, Nat.shiftRight_eq_div_pow,
    show (0xFF : UInt32).toNat = 2 ^ 8 - 1 from rfl, Nat.and_two_pow_sub_one_eq_mod]

theorem l0_val (i : UInt32) : (l0 i).val = i.toNat / 2 ^ 24 := by
  have h : i.toNat < 2 ^ 32 := i.toNat_lt
  have hs : (l0 i).val = i.toNat / 2 ^ 24 % 2 ^ 8 := slice_val i 24
  omega

theorem l1_val (i : UInt32) : (l1 i).val = i.toNat / 2 ^ 16 % 2 ^ 8 := slice_val i 16

theorem l2_val (i : UInt32) : (l2 i).val = i.toNat / 2 ^ 8 % 2 ^ 8 := slice_val i 8

theorem l3_val (i : UInt32) : (l3 i).val = i.toNat % 2 ^ 8 := by
  simp only [l3, UInt32.toNat_and]
  rw [show (0xFF : UInt32).toNat = 2 ^ 8 - 1 from rfl, Nat.and_two_pow_sub_one_eq_mod]

theorem eq_of_slices {i j : UInt32} (h0 : l0 i = l0 j) (h1 : l1 i = l1 j)
    (h2 : l2 i = l2 j) (h3 : l3 i = l3 j) : i = j := by
  have e0 := congrArg Fin.val h0
  have e1 := congrArg Fin.val h1
  have e2 := congrArg Fin.val h2
  have e3 := congrArg Fin.val h3
  rw [l0_val, l0_val] at e0
  rw [l1_val, l1_val] at e1
  rw [l2_val, l2_val] at e2
  rw [l3_val, l3_val] at e3
  exact UInt32.toNat_inj.mp (by omega)

theorem lt_100_iff (i : UInt32) : i < 0x100 ↔ l0 i = 0 ∧ l1 i = 0 ∧ l2 i = 0 := by
  have h : i.toNat < 2 ^ 32 := i.toNat_lt
  rw [UInt32.lt_iff_toNat_lt, show (0x100 : UInt32).toNat = 2 ^ 8 from rfl]
  simp only [Fin.ext_iff, l0_val, l1_val, l2_val, Fin.val_zero]
  omega

theorem lt_10000_iff (i : UInt32) : i < 0x10000 ↔ l0 i = 0 ∧ l1 i = 0 := by
  have h : i.toNat < 2 ^ 32 := i.toNat_lt
  rw [UInt32.lt_iff_toNat_lt, show (0x10000 : UInt32).toNat = 2 ^ 16 from rfl]
  simp only [Fin.ext_iff, l0_val, l1_val, Fin.val_zero]
  omega

theorem lt_1000000_iff (i : UInt32) : i < 0x1000000 ↔ l0 i = 0 := by
  have h : i.toNat < 2 ^ 32 := i.toNat_lt
  rw [UInt32.lt_iff_toNat_lt, show (0x1000000 : UInt32).toNat = 2 ^ 24 from rfl]
  simp only [Fin.ext_iff, l0_val, Fin.val_zero]
  omega

/-- The slices that `radix_set` follows below the first one are not zero, so no
node is created under a slot 0 and no shortcut root is replaced. -/
def OwnPath (i : UInt32) : Prop :=
  i < 0x10000 ∨ (l2 i ≠ 0 ∧ (i < 0x1000000 ∨ l1 i ≠ 0))

instance (i : UInt32) : Decidable (OwnPath i) :=
  inferInstanceAs (Decidable (_ ∨ _))

/-! ## Places

A place is a position of the tree that such an index can reach: the level of the
root the walk starts from and the slices followed from there. -/

/-- A root level and a path of non-zero slices not deeper than the leaves. -/
@[ext] structure Place where
  level : Fin 4
  path : List (Fin radixSlots)
  nonzero : 0 ∉ path
  depth : path.length + level.val ≤ 3

/-- The nodes at this place hold values. -/
def Place.IsLeaf (P : Place) : Prop := P.path.length + P.level.val = 3

instance (P : Place) : Decidable P.IsLeaf := inferInstanceAs (Decidable (_ = _))

/-- The place of a root. -/
def Place.root (r : Fin 4) : Place := ⟨r, [], by simp, by simp; omega⟩

/-- The place one level down. -/
def Place.snoc (P : Place) (k : Fin radixSlots) (hP : ¬ P.IsLeaf) (hk : k ≠ 0) : Place :=
  ⟨P.level, P.path ++ [k], by simp [P.nonzero, hk.symm], by
    have := P.depth
    simp only [IsLeaf] at hP
    simp only [List.length_append, List.length_singleton]
    omega⟩

/-- The four shortcut roots, by level. -/
def State.root (s : State) : Fin 4 → Ptr
  | 0 => s.rootL0
  | 1 => s.rootL1
  | 2 => s.rootL2
  | 3 => s.rootL3

/-- The node reached from `n` by following `path`. -/
def State.walk (s : State) (n : Ptr) (path : List (Fin radixSlots)) : Ptr :=
  path.foldl s.slot n

/-- The node at a place, `NULL` when there is none. -/
def State.addr (s : State) (P : Place) : Ptr := s.walk (s.root P.level) P.path

@[simp] theorem walk_nil (s : State) (n : Ptr) : s.walk n [] = n := rfl

theorem walk_cons (s : State) (n : Ptr) (k : Fin radixSlots) (p : List (Fin radixSlots)) :
    s.walk n (k :: p) = s.walk (s.slot n k) p := rfl

theorem walk_zero {s : State} (hnull : ∀ k, s.slot 0 k = 0) (p : List (Fin radixSlots)) :
    s.walk 0 p = 0 := by
  induction p with
  | nil => rfl
  | cons k p ih => rw [walk_cons, hnull, ih]

@[simp] theorem walk_append_singleton (s : State) (n : Ptr)
    (p : List (Fin radixSlots)) (k : Fin radixSlots) :
    s.walk n (p ++ [k]) = s.slot (s.walk n p) k := by
  simp [State.walk]

theorem addr_root (s : State) (r : Fin 4) : s.addr (Place.root r) = s.root r := rfl

theorem addr_snoc (s : State) (P : Place) (k : Fin radixSlots) (hP : ¬ P.IsLeaf)
    (hk : k ≠ 0) : s.addr (P.snoc k hP hk) = s.slot (s.addr P) k := by
  simp [State.addr, Place.snoc]

/-- A place is a root or one level below another place. -/
theorem Place.root_or_snoc (Q : Place) :
    Q = Place.root Q.level ∨
      ∃ (P : Place) (k : Fin radixSlots) (hP : ¬ P.IsLeaf) (hk : k ≠ 0),
        Q = P.snoc k hP hk := by
  rcases List.eq_nil_or_concat Q.path with hnil | ⟨p, k, hpath⟩
  · exact Or.inl (Place.ext rfl hnil)
  · rw [List.concat_eq_append] at hpath
    have hzero := Q.nonzero
    have hdepth := Q.depth
    rw [hpath] at hzero hdepth
    simp only [List.mem_append, List.mem_singleton, not_or] at hzero
    simp only [List.length_append, List.length_singleton] at hdepth
    refine Or.inr ⟨⟨Q.level, p, hzero.1, by omega⟩, k, ?_, Ne.symm hzero.2, ?_⟩
    · simp only [IsLeaf]
      omega
    · exact Place.ext rfl hpath

theorem Place.snoc_ne_root {P : Place} {k : Fin radixSlots} {hP : ¬ P.IsLeaf}
    {hk : k ≠ 0} (r : Fin 4) : P.snoc k hP hk ≠ Place.root r := by
  intro h
  have := congrArg Place.path h
  simp [Place.snoc, Place.root] at this

theorem Place.snoc_inj {P Q : Place} {k j : Fin radixSlots} {hP : ¬ P.IsLeaf}
    {hQ : ¬ Q.IsLeaf} {hk : k ≠ 0} {hj : j ≠ 0} :
    P.snoc k hP hk = Q.snoc j hQ hj ↔ P = Q ∧ k = j := by
  constructor
  · intro h
    have hlevel := congrArg Place.level h
    have hpath := congrArg Place.path h
    simp only [Place.snoc] at hlevel hpath
    obtain ⟨hp, hkj⟩ := List.append_inj' hpath rfl
    exact ⟨Place.ext hlevel hp, by simpa using hkj⟩
  · rintro ⟨rfl, rfl⟩
    rfl

/-- Induction along the path of a place. -/
theorem Place.induct {motive : Place → Prop} (hroot : ∀ r, motive (Place.root r))
    (hsnoc : ∀ P k hP hk, motive P → motive (P.snoc k hP hk)) (Q : Place) :
    motive Q := by
  -- on the length of the path
  suffices h : ∀ n (Q : Place), Q.path.length = n → motive Q from h _ Q rfl
  intro n
  induction n with
  | zero =>
    intro Q hlen
    have : Q = Place.root Q.level := Place.ext rfl (List.length_eq_zero_iff.mp hlen)
    rw [this]
    exact hroot _
  | succ n ih =>
    intro Q hlen
    rcases Q.root_or_snoc with h | ⟨P, k, hP, hk, h⟩
    · rw [h]
      exact hroot _
    · rw [h] at hlen ⊢
      refine hsnoc P k hP hk (ih P ?_)
      simpa [Place.snoc] using hlen

/-! ## The invariant -/

/-- No two places share a node, every node is allocated, and no node below a
root has anything in its slot 0. -/
structure Separated (s : State) : Prop where
  /-- reading through `NULL` gives `NULL`, as the code's tests make it -/
  null : ∀ k, s.slot 0 k = 0
  live : ∀ P, s.addr P ≠ 0 → s.addr P ∈ s.live
  inj : ∀ P Q, s.addr P ≠ 0 → s.addr P = s.addr Q → P = Q
  zero : ∀ P : Place, P.path ≠ [] → ¬ P.IsLeaf → s.slot (s.addr P) 0 = 0

/-- `s'` holds the same values as `s`. -/
def SameLeaves (s s' : State) : Prop :=
  ∀ P : Place, P.IsLeaf → ∀ j, s'.slot (s'.addr P) j = s.slot (s.addr P) j

theorem SameLeaves.trans {s s' s'' : State} (h : SameLeaves s s')
    (h' : SameLeaves s' s'') : SameLeaves s s'' :=
  fun P hP j => (h' P hP j).trans (h P hP j)

theorem addr_create (P : Place) : radixCreate.addr P = 0 := by
  induction P using Place.induct with
  | hroot r => fin_cases r <;> rfl
  | hsnoc P k hP hk ih =>
    rw [addr_snoc, ih]
    rfl

theorem separated_create : Separated radixCreate where
  null _ := rfl
  live P h := absurd (addr_create P) h
  inj P _ h _ := absurd (addr_create P) h
  zero _ _ _ := rfl

/-! ## Heap steps -/

/-- `rx->root_l<r> = a`. -/
def State.setRoot (s : State) (r : Fin 4) (a : Ptr) : State :=
  match r with
  | 0 => { s with rootL0 := a }
  | 1 => { s with rootL1 := a }
  | 2 => { s with rootL2 := a }
  | 3 => { s with rootL3 := a }

theorem root_setRoot (s : State) (r q : Fin 4) (a : Ptr) :
    (s.setRoot r a).root q = if q = r then a else s.root q := by
  fin_cases r <;> fin_cases q <;> rfl

@[simp] theorem slot_setRoot (s : State) (r : Fin 4) (a n : Ptr) (k : Fin radixSlots) :
    (s.setRoot r a).slot n k = s.slot n k := by
  fin_cases r <;> rfl

@[simp] theorem live_setRoot (s : State) (r : Fin 4) (a : Ptr) :
    (s.setRoot r a).live = s.live := by
  fin_cases r <;> rfl

@[simp] theorem calls_setRoot (s : State) (r : Fin 4) (a : Ptr) :
    (s.setRoot r a).calls = s.calls := by
  fin_cases r <;> rfl

theorem slot_setSlot (s : State) (n m : Ptr) (k j : Fin radixSlots) (v : Ptr) :
    (s.setSlot n k v).slot m j = if m = n ∧ j = k then v else s.slot m j := by
  by_cases hm : m = n
  · subst hm
    simp [State.slot, State.setSlot, Function.update_apply]
  · simp [State.slot, State.setSlot, hm]

@[simp] theorem root_setSlot (s : State) (n : Ptr) (k : Fin radixSlots) (v : Ptr)
    (r : Fin 4) : (s.setSlot n k v).root r = s.root r := by
  fin_cases r <;> rfl

@[simp] theorem live_setSlot (s : State) (n : Ptr) (k : Fin radixSlots) (v : Ptr) :
    (s.setSlot n k v).live = s.live := rfl

/-- A write to a slot that no path goes through moves no node. -/
theorem addr_setSlot {s : State} {m : Ptr} {k : Fin radixSlots}
    (hunused : k = 0 ∨ ∀ P : Place, ¬ P.IsLeaf → s.addr P ≠ m) (v : Ptr) (Q : Place) :
    (s.setSlot m k v).addr Q = s.addr Q := by
  induction Q using Place.induct with
  | hroot r => rw [addr_root, addr_root, root_setSlot]
  | hsnoc P j hP hj ih =>
    rw [addr_snoc, addr_snoc, ih, slot_setSlot, if_neg]
    rintro ⟨hm, rfl⟩
    rcases hunused with hzero | hne
    · exact hj hzero
    · exact hne P hP hm

/-- An allocated node that stands at no place yet. -/
structure Spare (s : State) (a : Ptr) : Prop where
  ne : a ≠ 0
  live : a ∈ s.live
  unplaced : ∀ P, s.addr P ≠ a
  empty : ∀ k, k ≠ 0 → s.slot a k = 0

section
variable {C : Calloc} {s : State}

theorem newNode_spec (hC : C.Succeeds) (h : Separated s) :
    ∃ a s', newNode C s = (a, s') ∧ Separated s' ∧ SameLeaves s s' ∧ Spare s' a ∧
      s'.slot a 0 = 0 ∧ (∀ r, s'.root r = s.root r) ∧ (∀ P, s'.addr P = s.addr P) ∧
      ∀ b, Spare s b → b ≠ a ∧ Spare s' b := by
  have hne : C.pick s.calls s.live ≠ 0 := hC _ _
  have hfresh := C.pick_fresh _ _ hne
  generalize ha : C.pick s.calls s.live = a at hne hfresh
  refine ⟨a, _, by rw [newNode, ha, if_neg hne], ?_⟩
  set s' : State := { s with node := Function.update s.node a (fun _ => 0),
                             live := insert a s.live, calls := s.calls + 1 } with hs'
  have hslot : ∀ m k, s'.slot m k = if m = a then 0 else s.slot m k := by
    intro m k
    by_cases hm : m = a <;> simp [hs', State.slot, hm]
  have hroot : ∀ r, s'.root r = s.root r := fun r => by fin_cases r <;> rfl
  have haway : ∀ P, s.addr P ≠ a := by
    intro P hP
    exact hfresh (hP ▸ h.live P (by rw [hP]; exact hne))
  have haddr : ∀ P, s'.addr P = s.addr P := by
    intro P
    induction P using Place.induct with
    | hroot r => rw [addr_root, addr_root, hroot]
    | hsnoc P k hP hk ih => rw [addr_snoc, addr_snoc, ih, hslot, if_neg (haway P)]
  have hslotP : ∀ P k, s'.slot (s.addr P) k = s.slot (s.addr P) k := fun P k => by
    rw [hslot, if_neg (haway P)]
  refine ⟨⟨?_, ?_, ?_, ?_⟩, ?_, ⟨hne, ?_, ?_, ?_⟩, ?_, hroot, haddr, ?_⟩
  · intro k
    rw [hslot, if_neg (Ne.symm hne), h.null]
  · intro P hP
    rw [haddr] at hP ⊢
    exact Finset.mem_insert_of_mem (h.live P hP)
  · intro P Q hP hPQ
    rw [haddr] at hP
    rw [haddr, haddr] at hPQ
    exact h.inj P Q hP hPQ
  · intro P hpath hleaf
    rw [haddr, hslotP, h.zero P hpath hleaf]
  · intro P _ j
    rw [haddr, hslotP]
  · exact Finset.mem_insert_self _ _
  · intro P
    rw [haddr]
    exact haway P
  · intro k _
    rw [hslot, if_pos rfl]
  · rw [hslot, if_pos rfl]
  · intro b hb
    have hba : b ≠ a := by
      rintro rfl
      exact hfresh hb.live
    refine ⟨hba, hb.ne, Finset.mem_insert_of_mem hb.live, ?_, ?_⟩
    · intro P
      rw [haddr]
      exact hb.unplaced P
    · intro k hk
      rw [hslot, if_neg hba, hb.empty k hk]

/-- A spare node put at an empty place. -/
theorem attach {s' : State} {P : Place} {a : Ptr} (h : Separated s)
    (hempty : s.addr P = 0) (ha : Spare s a)
    (ha0 : P.path ≠ [] ∨ P.IsLeaf → s.slot a 0 = 0)
    (hnull : ∀ k, s'.slot 0 k = 0) (hlive : s'.live = s.live)
    (hslot : ∀ (Q : Place) k, Q.IsLeaf ∨ k = 0 →
      s'.slot (s.addr Q) k = s.slot (s.addr Q) k)
    (hslotA : ∀ k, s'.slot a k = s.slot a k)
    (haddrP : s'.addr P = a) (haddr : ∀ Q, Q ≠ P → s'.addr Q = s.addr Q) :
    Separated s' ∧ SameLeaves s s' := by
  refine ⟨⟨hnull, ?_, ?_, ?_⟩, ?_⟩
  · intro Q hQ
    rw [hlive]
    by_cases hQP : Q = P
    · rw [hQP, haddrP]
      exact ha.live
    · rw [haddr Q hQP] at hQ ⊢
      exact h.live Q hQ
  · intro Q R hQ hQR
    by_cases hQP : Q = P <;> by_cases hRP : R = P
    · rw [hQP, hRP]
    · rw [hQP, haddrP, haddr R hRP] at hQR
      exact absurd hQR.symm (ha.unplaced R)
    · rw [hRP, haddrP, haddr Q hQP] at hQR
      exact absurd hQR (ha.unplaced Q)
    · rw [haddr Q hQP] at hQ
      rw [haddr Q hQP, haddr R hRP] at hQR
      exact h.inj Q R hQ hQR
  · intro Q hpath hleaf
    by_cases hQP : Q = P
    · subst hQP
      rw [haddrP, hslotA]
      exact ha0 (Or.inl hpath)
    · rw [haddr Q hQP, hslot Q 0 (Or.inr rfl)]
      exact h.zero Q hpath hleaf
  · intro Q hleaf j
    by_cases hQP : Q = P
    · subst hQP
      rw [haddrP, hslotA, hempty, h.null]
      by_cases hj : j = 0
      · rw [hj]
        exact ha0 (Or.inr hleaf)
      · exact ha.empty j hj
    · rw [haddr Q hQP, hslot Q j (Or.inl hleaf)]

theorem attach_root {a : Ptr} (h : Separated s) (r : Fin 4) (hr : s.root r = 0)
    (ha : Spare s a) (ha0 : r = 3 → s.slot a 0 = 0) :
    Separated (s.setRoot r a) ∧ SameLeaves s (s.setRoot r a) ∧
      (∀ Q, Q ≠ Place.root r → (s.setRoot r a).addr Q = s.addr Q) := by
  have haddr : ∀ Q, Q ≠ Place.root r → (s.setRoot r a).addr Q = s.addr Q := by
    intro Q
    induction Q using Place.induct with
    | hroot q =>
      intro hq
      rw [addr_root, addr_root, root_setRoot, if_neg]
      rintro rfl
      exact hq rfl
    | hsnoc P k hP hk ih =>
      intro _
      rw [addr_snoc, addr_snoc, slot_setRoot]
      by_cases hPr : P = Place.root r
      · -- below the new root there is nothing yet
        rw [hPr, addr_root, addr_root, root_setRoot, if_pos rfl, hr, h.null,
          ha.empty k hk]
      · rw [ih hPr]
  have hself : (s.setRoot r a).addr (Place.root r) = a := by
    rw [addr_root, root_setRoot, if_pos rfl]
  obtain ⟨hsep, hsame⟩ : Separated (s.setRoot r a) ∧ SameLeaves s (s.setRoot r a) :=
   attach (P := Place.root r) h hr ha
    (by
      rintro (hpath | hleaf)
      · exact absurd rfl hpath
      · refine ha0 (Fin.ext ?_)
        simpa [Place.IsLeaf, Place.root] using hleaf)
    (fun k => by rw [slot_setRoot, h.null]) (live_setRoot s r a)
    (fun Q k _ => slot_setRoot s r a _ k) (fun k => slot_setRoot s r a a k) hself haddr
  exact ⟨hsep, hsame, haddr⟩

theorem attach_child {a : Ptr} {P : Place} {k : Fin radixSlots} (h : Separated s)
    (hP : ¬ P.IsLeaf) (hk : k ≠ 0) (hparent : s.addr P ≠ 0)
    (hslotP : s.slot (s.addr P) k = 0) (ha : Spare s a) (ha0 : s.slot a 0 = 0) :
    Separated (s.setSlot (s.addr P) k a) ∧ SameLeaves s (s.setSlot (s.addr P) k a) ∧
      (s.setSlot (s.addr P) k a).addr (P.snoc k hP hk) = a := by
  set s' := s.setSlot (s.addr P) k a with hs'
  have haP : a ≠ s.addr P := fun e => ha.unplaced P e.symm
  have hslotA : ∀ j, s'.slot a j = s.slot a j := fun j => by
    rw [hs', slot_setSlot, if_neg fun e => haP e.1]
  have hempty : s.addr (P.snoc k hP hk) = 0 := by rw [addr_snoc, hslotP]
  -- the written slot lies on the way to a place only below `P`
  have hstep : ∀ (Q : Place) j, (Q ≠ P ∨ j ≠ k) → s'.slot (s.addr Q) j = s.slot (s.addr Q) j := by
    intro Q j hQj
    rw [hs', slot_setSlot, if_neg]
    rintro ⟨hm, hj⟩
    rcases hQj with hQ | hj'
    · exact hQ (h.inj P Q hparent hm.symm).symm
    · exact hj' hj
  have hshort : ∀ Q : Place, Q.path.length ≤ P.path.length → s'.addr Q = s.addr Q := by
    intro Q
    induction Q using Place.induct with
    | hroot r => intro _; rw [addr_root, addr_root, hs', root_setSlot]
    | hsnoc Q j hQ hj ih =>
      intro hlen
      simp only [Place.snoc, List.length_append, List.length_singleton] at hlen
      have hQP : Q ≠ P := by
        rintro rfl
        omega
      rw [addr_snoc, addr_snoc, ih (by omega), hstep Q j (Or.inl hQP)]
  have hself : s'.addr (P.snoc k hP hk) = a := by
    rw [addr_snoc, hshort P le_rfl, hs', slot_setSlot, if_pos ⟨rfl, rfl⟩]
  have haddr : ∀ Q, Q ≠ P.snoc k hP hk → s'.addr Q = s.addr Q := by
    intro Q
    induction Q using Place.induct with
    | hroot r => intro _; rw [addr_root, addr_root, hs', root_setSlot]
    | hsnoc Q j hQ hj ih =>
      intro hne
      rw [addr_snoc, addr_snoc]
      by_cases hQP : Q = P.snoc k hP hk
      · -- the new node has no child
        rw [hQP, hself, hempty, h.null, hslotA, ha.empty j hj]
      · rw [ih hQP]
        refine hstep Q j ?_
        by_contra hcon
        simp only [not_or, not_not] at hcon
        exact hne (Place.snoc_inj.mpr hcon)
  obtain ⟨hsep, hsame⟩ : Separated s' ∧ SameLeaves s s' :=
   attach (P := P.snoc k hP hk) h hempty ha
    (fun _ => ha0)
    (fun j => by rw [hs', slot_setSlot, if_neg fun e => hparent e.1.symm, h.null])
    (live_setSlot s _ k a)
    (fun Q j hQj => hstep Q j (by
      rcases hQj with hleaf | rfl
      · exact Or.inl fun e => hP (e ▸ hleaf)
      · exact Or.inr (Ne.symm hk)))
    hslotA hself haddr
  exact ⟨hsep, hsame, hself⟩

/-- A write to slot 0 of a node that is a root or stands nowhere. -/
theorem setSlot_zero_spec {m : Ptr} (h : Separated s) (hm : m ≠ 0)
    (hroot : ∀ Q, s.addr Q = m → Q.path = [] ∧ ¬ Q.IsLeaf) (v : Ptr) :
    Separated (s.setSlot m 0 v) ∧ SameLeaves s (s.setSlot m 0 v) ∧
      ∀ b, Spare s b → Spare (s.setSlot m 0 v) b := by
  have haddr : ∀ Q, (s.setSlot m 0 v).addr Q = s.addr Q :=
    addr_setSlot (Or.inl rfl) v
  have hslot : ∀ (Q : Place) j, Q.path ≠ [] ∨ Q.IsLeaf ∨ j ≠ 0 →
      (s.setSlot m 0 v).slot (s.addr Q) j = s.slot (s.addr Q) j := by
    intro Q j hQ
    rw [slot_setSlot, if_neg]
    rintro ⟨hQm, hj⟩
    obtain ⟨hpath, hleaf⟩ := hroot Q hQm
    rcases hQ with hQ | hQ | hQ
    · exact hQ hpath
    · exact hleaf hQ
    · exact hQ hj
  refine ⟨⟨?_, ?_, ?_, ?_⟩, ?_, ?_⟩
  · intro k
    rw [slot_setSlot, if_neg fun e => hm e.1.symm, h.null]
  · intro P hP
    rw [haddr] at hP ⊢
    exact h.live P hP
  · intro P Q hP hPQ
    rw [haddr] at hP
    rw [haddr, haddr] at hPQ
    exact h.inj P Q hP hPQ
  · intro P hpath hleaf
    rw [haddr, hslot P 0 (Or.inl hpath), h.zero P hpath hleaf]
  · intro P hleaf j
    rw [haddr, hslot P j (Or.inr (Or.inl hleaf))]
  · intro b hb
    refine ⟨hb.ne, hb.live, fun P => by rw [haddr]; exact hb.unplaced P, ?_⟩
    intro k hk
    rw [slot_setSlot, if_neg fun e => hk e.2, hb.empty k hk]

/-- A write to a slot of a leaf. -/
theorem setLeaf_spec {P : Place} (h : Separated s) (hP : P.IsLeaf) (hne : s.addr P ≠ 0)
    (j : Fin radixSlots) (v : Ptr) :
    Separated (s.setSlot (s.addr P) j v) ∧
      ∀ (Q : Place) k, Q.IsLeaf → (s.setSlot (s.addr P) j v).slot
          ((s.setSlot (s.addr P) j v).addr Q) k =
        if s.addr Q = s.addr P ∧ k = j then v else s.slot (s.addr Q) k := by
  have hinner : ∀ Q : Place, ¬ Q.IsLeaf → s.addr Q ≠ s.addr P := by
    intro Q hQ hQP
    exact hQ (h.inj P Q hne hQP.symm ▸ hP)
  have haddr : ∀ Q, (s.setSlot (s.addr P) j v).addr Q = s.addr Q :=
    addr_setSlot (Or.inr hinner) v
  refine ⟨⟨?_, ?_, ?_, ?_⟩, ?_⟩
  · intro k
    rw [slot_setSlot, if_neg fun e => hne e.1.symm, h.null]
  · intro Q hQ
    rw [haddr] at hQ ⊢
    exact h.live Q hQ
  · intro Q R hQ hQR
    rw [haddr] at hQ
    rw [haddr, haddr] at hQR
    exact h.inj Q R hQ hQR
  · intro Q hpath hleaf
    rw [haddr, slot_setSlot, if_neg fun e => hinner Q hleaf e.1, h.zero Q hpath hleaf]
  · intro Q k _
    rw [haddr, slot_setSlot]

/-! ## Node creation

Each step of `radix_set` ends in a state where the node it was after stands at
its place, and the stored values are those of before. -/

/-- `n` is the node at `P` after a step from `s` to `s'` that stores nothing. -/
structure Grown (s : State) (P : Place) (n : Ptr) (s' : State) : Prop where
  ne : n ≠ 0
  here : s'.addr P = n
  sep : Separated s'
  same : SameLeaves s s'

theorem Grown.self {P : Place} (h : Separated s) (hne : s.addr P ≠ 0) :
    Grown s P (s.addr P) s :=
  ⟨hne, rfl, h, fun _ _ _ => rfl⟩

theorem child_spec (setRoot : State → Ptr → State) {P : Place} {k : Fin radixSlots}
    (hC : C.Succeeds) (h : Separated s) (hP : ¬ P.IsLeaf) (hk : k ≠ 0)
    (hparent : s.addr P ≠ 0) :
    ∃ n s', child setRoot C s (s.addr P) k = (n, s') ∧
      Grown s (P.snoc k hP hk) n s' := by
  by_cases hn : s.slot (s.addr P) k = 0
  · obtain ⟨a, s₁, hnew, h₁, hsame₁, ha, ha0, _, haddr, _⟩ := newNode_spec hC h
    have hparent₁ : s₁.addr P ≠ 0 := by rwa [haddr]
    have hslot₁ : s₁.slot (s₁.addr P) k = 0 := by
      rw [← addr_snoc s₁ P k hP hk, haddr, addr_snoc, hn]
    obtain ⟨h₂, hsame₂, hself⟩ := attach_child h₁ hP hk hparent₁ hslot₁ ha ha0
    refine ⟨a, s₁.setSlot (s₁.addr P) k a, ?_, ha.ne, hself, h₂, hsame₁.trans hsame₂⟩
    simp only [child, hn, ne_eq, not_true_eq_false, if_false, hnew, ha.ne, hk, haddr]
  · refine ⟨s.slot (s.addr P) k, s, by simp [child, hn], ?_⟩
    rw [← addr_snoc s P k hP hk] at hn ⊢
    exact Grown.self h hn

theorem rootL3Node_spec (hC : C.Succeeds) (h : Separated s) :
    ∃ n s', rootL3Node C s = (n, s') ∧ Grown s (Place.root 3) n s' := by
  by_cases hn : s.rootL3 = 0
  · obtain ⟨a, s₁, hnew, h₁, hsame₁, ha, ha0, hroot, _, _⟩ := newNode_spec hC h
    obtain ⟨h₂, hsame₂, _⟩ := attach_root h₁ 3 ((hroot 3).trans hn) ha fun _ => ha0
    refine ⟨a, s₁.setRoot 3 a, ?_, ha.ne, ?_, h₂, hsame₁.trans hsame₂⟩
    · simp only [rootL3Node, hn, ne_eq, not_true_eq_false, if_false, hnew, ha.ne]
      rfl
    · rw [addr_root, root_setRoot, if_pos rfl]
  · exact ⟨s.rootL3, s, by simp [rootL3Node, hn], Grown.self (P := Place.root 3) h hn⟩

/-- A spare node with anything in slot 0 becomes the root of an inner level. -/
theorem install_root (h : Separated s) {r : Fin 4} (hr3 : r ≠ 3) (hr : s.root r = 0)
    {a : Ptr} (ha : Spare s a) (v : Ptr) :
    Grown s (Place.root r) a ((s.setSlot a 0 v).setRoot r a) := by
  obtain ⟨h₁, hsame₁, hspare⟩ := setSlot_zero_spec h ha.ne
    (fun Q hQ => absurd hQ (ha.unplaced Q)) v
  obtain ⟨h₂, hsame₂, _⟩ := attach_root h₁ r (by rw [root_setSlot, hr]) (hspare a ha)
    fun e => absurd e hr3
  refine ⟨ha.ne, ?_, h₂, hsame₁.trans hsame₂⟩
  rw [addr_root, root_setRoot, if_pos rfl]

theorem rootL2Node_spec (hC : C.Succeeds) (h : Separated s) :
    ∃ n s', rootL2Node C s = (n, s') ∧ Grown s (Place.root 2) n s' := by
  by_cases hn : s.rootL2 = 0
  · obtain ⟨a, s₁, hnew, h₁, hsame₁, ha, _, hroot, _, _⟩ := newNode_spec hC h
    have hg := install_root h₁ (r := 2) (by decide) ((hroot 2).trans hn) ha s₁.rootL3
    refine ⟨a, _, ?_, hg.ne, hg.here, hg.sep, hsame₁.trans hg.same⟩
    simp only [rootL2Node, hn, ne_eq, not_true_eq_false, if_false, hnew, ha.ne]
    rfl
  · exact ⟨s.rootL2, s, by simp [rootL2Node, hn], Grown.self (P := Place.root 2) h hn⟩

/-- The two `raise` steps: a new root `r` above another one, set before its
slot 0 is filled. -/
theorem raise_spec (h : Separated s) {r : Fin 4} (hr3 : r ≠ 3) (hr : s.root r = 0)
    {a : Ptr} (ha : Spare s a) (v : Ptr) :
    Separated ((s.setRoot r a).setSlot a 0 v) ∧
      SameLeaves s ((s.setRoot r a).setSlot a 0 v) ∧
      ∀ b, b ≠ a → Spare s b → Spare ((s.setRoot r a).setSlot a 0 v) b := by
  obtain ⟨h₁, hsame₁, haddr₁⟩ := attach_root h r hr ha fun e => absurd e hr3
  have hself : (s.setRoot r a).addr (Place.root r) = a := by
    rw [addr_root, root_setRoot, if_pos rfl]
  have honly : ∀ Q, (s.setRoot r a).addr Q = a → Q.path = [] ∧ ¬ Q.IsLeaf := by
    intro Q hQ
    have hQr : Place.root r = Q :=
      h₁.inj _ _ (by rw [hself]; exact ha.ne) (hself.trans hQ.symm)
    subst hQr
    refine ⟨rfl, fun hleaf => hr3 (Fin.ext ?_)⟩
    simpa [Place.IsLeaf, Place.root] using hleaf
  obtain ⟨h₂, hsame₂, hspare⟩ := setSlot_zero_spec h₁ ha.ne honly v
  refine ⟨h₂, hsame₁.trans hsame₂, ?_⟩
  intro b hba hb
  refine hspare b ⟨hb.ne, by rw [live_setRoot]; exact hb.live, ?_, ?_⟩
  · intro Q hQ
    by_cases hQr : Q = Place.root r
    · rw [hQr, hself] at hQ
      exact hba hQ.symm
    · rw [haddr₁ Q hQr] at hQ
      exact hb.unplaced Q hQ
  · intro k hk
    rw [slot_setRoot, hb.empty k hk]

theorem raiseL2_spec (hC : C.Succeeds) (h : Separated s) :
    ∃ s', raiseL2 C s = (true, s') ∧ Separated s' ∧ SameLeaves s s' ∧
      s'.rootL0 = s.rootL0 ∧ s'.rootL1 = s.rootL1 ∧ ∀ b, Spare s b → Spare s' b := by
  by_cases hcond : s.rootL2 = 0 ∧ s.rootL3 ≠ 0
  · obtain ⟨a, s₁, hnew, h₁, hsame₁, ha, _, hroot, _, hspare⟩ := newNode_spec hC h
    obtain ⟨h₂, hsame₂, hspare₂⟩ :=
      raise_spec h₁ (r := 2) (by decide) ((hroot 2).trans hcond.1) ha s₁.rootL3
    refine ⟨(s₁.setRoot 2 a).setSlot a 0 s₁.rootL3, ?_, h₂, hsame₁.trans hsame₂,
      hroot 0, hroot 1, ?_⟩
    · simp only [raiseL2, hcond, ne_eq, not_false_eq_true, and_self, if_true, hnew, ha.ne,
        if_false]
      rfl
    · intro b hb
      exact hspare₂ b (hspare b hb).1 (hspare b hb).2
  · exact ⟨s, by rw [raiseL2, if_neg hcond], h, fun _ _ _ => rfl, rfl, rfl, fun _ hb => hb⟩

theorem raiseL1_spec (hC : C.Succeeds) (h : Separated s) :
    ∃ s', raiseL1 C s = (true, s') ∧ Separated s' ∧ SameLeaves s s' ∧
      s'.rootL0 = s.rootL0 ∧ ∀ b, Spare s b → Spare s' b := by
  by_cases hcond : s.rootL1 = 0 ∧ s.rootL2 ≠ 0
  · obtain ⟨a, s₁, hnew, h₁, hsame₁, ha, _, hroot, _, hspare⟩ := newNode_spec hC h
    obtain ⟨h₂, hsame₂, hspare₂⟩ :=
      raise_spec h₁ (r := 1) (by decide) ((hroot 1).trans hcond.1) ha s₁.rootL2
    refine ⟨(s₁.setRoot 1 a).setSlot a 0 s₁.rootL2, ?_, h₂, hsame₁.trans hsame₂,
      hroot 0, ?_⟩
    · simp only [raiseL1, hcond, ne_eq, not_false_eq_true, and_self, if_true, hnew, ha.ne,
        if_false]
      rfl
    · intro b hb
      exact hspare₂ b (hspare b hb).1 (hspare b hb).2
  · exact ⟨s, by rw [raiseL1, if_neg hcond], h, fun _ _ _ => rfl, rfl, fun _ hb => hb⟩

theorem rootL1Node_spec (hC : C.Succeeds) (h : Separated s) :
    ∃ n s', rootL1Node C s = (n, s') ∧ Grown s (Place.root 1) n s' := by
  by_cases hn : s.rootL1 = 0
  · obtain ⟨a, s₁, hnew, h₁, hsame₁, ha, _, hroot, _, _⟩ := newNode_spec hC h
    obtain ⟨s₂, hraise, h₂, hsame₂, _, hroot₂, hspare₂⟩ := raiseL2_spec hC h₁
    have hg := install_root h₂ (r := 1) (by decide)
      ((hroot₂.trans (hroot 1)).trans hn) (hspare₂ a ha) s₂.rootL2
    refine ⟨a, _, ?_, hg.ne, hg.here, hg.sep, (hsame₁.trans hsame₂).trans hg.same⟩
    simp only [rootL1Node, hn, ne_eq, not_true_eq_false, if_false, hnew, ha.ne, hraise,
      Bool.true_eq_false]
    rfl
  · exact ⟨s.rootL1, s, by simp [rootL1Node, hn], Grown.self (P := Place.root 1) h hn⟩

theorem rootL0Node_spec (hC : C.Succeeds) (h : Separated s) :
    ∃ n s', rootL0Node C s = (n, s') ∧ Grown s (Place.root 0) n s' := by
  by_cases hn : s.rootL0 = 0
  · obtain ⟨a, s₁, hnew, h₁, hsame₁, ha, _, hroot, _, _⟩ := newNode_spec hC h
    obtain ⟨s₂, hraise₂, h₂, hsame₂, hroot₂, _, hspare₂⟩ := raiseL2_spec hC h₁
    obtain ⟨s₃, hraise₃, h₃, hsame₃, hroot₃, hspare₃⟩ := raiseL1_spec hC h₂
    have hg := install_root h₃ (r := 0) (by decide)
      ((hroot₃.trans (hroot₂.trans (hroot 0))).trans hn) (hspare₃ a (hspare₂ a ha)) s₃.rootL1
    refine ⟨a, _, ?_, hg.ne, hg.here, hg.sep,
      ((hsame₁.trans hsame₂).trans hsame₃).trans hg.same⟩
    simp only [rootL0Node, hn, ne_eq, not_true_eq_false, if_false, hnew, ha.ne, hraise₂,
      hraise₃, Bool.true_eq_false]
    rfl
  · exact ⟨s.rootL0, s, by simp [rootL0Node, hn], Grown.self (P := Place.root 0) h hn⟩

/-! ## `radix_get` and `radix_set` on separated trees -/

/-- The slices an index walks through from its root. -/
def slices (i : UInt32) : Fin 4 × List (Fin radixSlots) :=
  if i < 0x100 then (3, [])
  else if i < 0x10000 then (2, [l2 i])
  else if i < 0x1000000 then (1, [l1 i, l2 i])
  else (0, [l0 i, l1 i, l2 i])

/-- With `NULL` reading as `NULL` everywhere, the tests of `radix_get` are void. -/
theorem radixGet_of_null (hnull : ∀ k, s.slot 0 k = 0) (i : UInt32) :
    radixGet s i = s.slot (s.walk (s.root (slices i).1) (slices i).2) (l3 i) := by
  have skip : ∀ n v : Ptr, (n = 0 → v = 0) → (if n = 0 then 0 else v) = v := by
    intro n v hv
    split
    · rename_i hn
      exact (hv hn).symm
    · rfl
  unfold radixGet slices
  split_ifs
  · exact skip _ _ fun e => by rw [e, hnull]
  · simp only [State.walk, List.foldl_cons, List.foldl_nil, State.root]
    rw [skip (s.slot s.rootL2 (l2 i)) _ fun e => by rw [e, hnull],
      skip s.rootL2 _ fun e => by rw [e, hnull, hnull]]
  · simp only [State.walk, List.foldl_cons, List.foldl_nil, State.root]
    rw [skip (s.slot (s.slot s.rootL1 (l1 i)) (l2 i)) _ fun e => by rw [e, hnull],
      skip (s.slot s.rootL1 (l1 i)) _ fun e => by rw [e, hnull, hnull],
      skip s.rootL1 _ fun e => by rw [e, hnull, hnull, hnull]]
  · simp only [State.walk, List.foldl_cons, List.foldl_nil, State.root]
    rw [skip (s.slot (s.slot (s.slot s.rootL0 (l0 i)) (l1 i)) (l2 i)) _
        fun e => by rw [e, hnull],
      skip (s.slot (s.slot s.rootL0 (l0 i)) (l1 i)) _ fun e => by rw [e, hnull, hnull],
      skip (s.slot s.rootL0 (l0 i)) _ fun e => by rw [e, hnull, hnull, hnull],
      skip s.rootL0 _ fun e => by rw [e, hnull, hnull, hnull, hnull]]

theorem radixGet_eq_walk (h : Separated s) (i : UInt32) :
    radixGet s i = s.slot (s.walk (s.root (slices i).1) (slices i).2) (l3 i) :=
  radixGet_of_null h.null i

theorem slices_nonzero {i : UInt32} (hi : OwnPath i) : 0 ∉ (slices i).2 := by
  unfold slices
  split_ifs with h1 h2 h3
  · simp
  · rw [lt_100_iff] at h1
    rw [lt_10000_iff] at h2
    simp only [List.mem_singleton]
    intro e
    exact h1 ⟨h2.1, h2.2, e.symm⟩
  · rw [lt_10000_iff] at h2
    rcases hi with hi | ⟨hi, _⟩
    · exact absurd ((lt_10000_iff i).mp hi) h2
    · rw [lt_1000000_iff] at h3
      simp only [List.mem_cons, List.not_mem_nil, or_false, not_or]
      exact ⟨fun e => h2 ⟨h3, e.symm⟩, Ne.symm hi⟩
  · rcases hi with hi | ⟨hi2, hi | hi1⟩
    · exact absurd hi h2
    · exact absurd hi h3
    · rw [lt_1000000_iff] at h3
      simp only [List.mem_cons, List.not_mem_nil, or_false, not_or]
      exact ⟨Ne.symm h3, Ne.symm hi1, Ne.symm hi2⟩

theorem slices_length (i : UInt32) : (slices i).2.length + (slices i).1.val = 3 := by
  unfold slices
  split_ifs <;> rfl

/-- The leaf of an index with its own path. -/
def leafOf (i : UInt32) (hi : OwnPath i) : Place :=
  ⟨(slices i).1, (slices i).2, slices_nonzero hi, (slices_length i).le⟩

theorem leafOf_isLeaf (i : UInt32) (hi : OwnPath i) : (leafOf i hi).IsLeaf :=
  slices_length i

theorem slices_inj {i j : UInt32} (h : slices i = slices j) (h3 : l3 i = l3 j) :
    i = j := by
  unfold slices at h
  split_ifs at h with hi1 hj1 hj2 hj3 hi2 hj1 hj2 hj3 hi3 hj1 hj2 hj3 hj1 hj2 hj3
  all_goals try (simp at h; done)
  · rw [lt_100_iff] at hi1 hj1
    exact eq_of_slices (hi1.1.trans hj1.1.symm) (hi1.2.1.trans hj1.2.1.symm)
      (hi1.2.2.trans hj1.2.2.symm) h3
  · rw [lt_10000_iff] at hi2 hj2
    simp only [Prod.mk.injEq, List.cons.injEq, and_true, true_and] at h
    exact eq_of_slices (hi2.1.trans hj2.1.symm) (hi2.2.trans hj2.2.symm) h h3
  · rw [lt_1000000_iff] at hi3 hj3
    simp only [Prod.mk.injEq, List.cons.injEq, and_true, true_and] at h
    exact eq_of_slices (hi3.trans hj3.symm) h.1 h.2 h3
  · simp only [Prod.mk.injEq, List.cons.injEq, and_true, true_and] at h
    exact eq_of_slices h.1 h.2.1 h.2.2 h3

theorem radixGet_of_ownPath (h : Separated s) {i : UInt32} (hi : OwnPath i) :
    radixGet s i = s.slot (s.addr (leafOf i hi)) (l3 i) :=
  radixGet_eq_walk h i

/-- An index without a path of its own reads `NULL`: its walk meets an empty
slot 0 of a node below a root. -/
theorem radixGet_of_not_ownPath (h : Separated s) {i : UInt32} (hi : ¬ OwnPath i) :
    radixGet s i = 0 := by
  rw [radixGet_eq_walk h]
  simp only [OwnPath, not_or, not_and, not_not] at hi
  obtain ⟨h2, hi⟩ := hi
  have h1 : ¬ i < 0x100 := fun e =>
    h2 ((lt_10000_iff i).mpr ⟨((lt_100_iff i).mp e).1, ((lt_100_iff i).mp e).2.1⟩)
  by_cases h3 : i < 0x1000000
  · -- L0 = 0, L1 ≠ 0, L2 = 0
    have hl2 : l2 i = 0 := by
      by_contra hne
      exact (hi hne).1 h3
    have hl1 : l1 i ≠ 0 := fun e =>
      h2 ((lt_10000_iff i).mpr ⟨(lt_1000000_iff i).mp h3, e⟩)
    have hz := h.zero ((Place.root 1).snoc (l1 i) (by decide) hl1)
      (by simp [Place.snoc]) (by simp [Place.IsLeaf, Place.snoc, Place.root])
    rw [addr_snoc, addr_root] at hz
    simp only [slices, h1, h2, h3, if_false, if_true, State.walk, List.foldl_cons,
      List.foldl_nil, hl2, hz, h.null]
  · have hl0 : l0 i ≠ 0 := fun e => h3 ((lt_1000000_iff i).mpr e)
    simp only [slices, h1, h2, h3, if_false, State.walk, List.foldl_cons, List.foldl_nil]
    by_cases hl1 : l1 i = 0
    · have hz := h.zero ((Place.root 0).snoc (l0 i) (by decide) hl0)
        (by simp [Place.snoc]) (by simp [Place.IsLeaf, Place.snoc, Place.root])
      rw [addr_snoc, addr_root] at hz
      rw [hl1, hz, h.null, h.null]
    · have hl2 : l2 i = 0 := by
        by_contra hne
        exact hl1 (hi hne).2
      have hz := h.zero (((Place.root 0).snoc (l0 i) (by decide) hl0).snoc (l1 i)
        (by simp [Place.IsLeaf, Place.snoc, Place.root]) hl1)
        (by simp [Place.snoc]) (by simp [Place.IsLeaf, Place.snoc, Place.root])
      rw [addr_snoc, addr_snoc, addr_root] at hz
      rw [hl2, hz, h.null]

theorem Grown.trans {s' s'' : State} {P Q : Place} {n m : Ptr} (h : Grown s P n s')
    (h' : Grown s' Q m s'') : Grown s Q m s'' :=
  ⟨h'.ne, h'.here, h'.sep, h.same.trans h'.same⟩

/-- One more level: the child of the node just grown. -/
theorem Grown.child {s' : State} {P : Place} {n : Ptr} (hg : Grown s P n s')
    (setRoot : State → Ptr → State) (hC : C.Succeeds) {k : Fin radixSlots}
    (hP : ¬ P.IsLeaf) (hk : k ≠ 0) :
    ∃ m s'', Radix.child setRoot C s' n k = (m, s'') ∧ Grown s (P.snoc k hP hk) m s'' := by
  obtain ⟨m, s'', hchild, hg'⟩ := child_spec setRoot hC hg.sep hP hk
    (by rw [hg.here]; exact hg.ne)
  rw [hg.here] at hchild
  exact ⟨m, s'', hchild, hg.trans hg'⟩

/-- `radix_set` at an index with its own path grows the path and then writes the
leaf. -/
theorem radixSet_eq (hC : C.Succeeds) (h : Separated s) {i : UInt32} (hi : OwnPath i)
    (v : Ptr) :
    ∃ n s', Grown s (leafOf i hi) n s' ∧
      radixSet C s i v = (0, s'.setSlot n (l3 i) v) := by
  have hnz := slices_nonzero hi
  by_cases h1 : i < 0x100
  · obtain ⟨n, s', hroot, hg⟩ := rootL3Node_spec hC h
    have hleaf : leafOf i hi = Place.root 3 := by
      simp [leafOf, slices, h1, Place.root]
    refine ⟨n, s', hleaf ▸ hg, ?_⟩
    simp only [radixSet, h1, if_true, hroot, hg.ne, if_false]
  by_cases h2 : i < 0x10000
  · simp only [slices, h1, h2, if_false, if_true, List.mem_singleton] at hnz
    obtain ⟨n2, s₁, hroot, hg₁⟩ := rootL2Node_spec hC h
    obtain ⟨n3, s₂, hc3, hg₂⟩ := hg₁.child (fun s n => { s with rootL3 := n }) hC
      (by decide) (Ne.symm hnz)
    have hleaf : leafOf i hi = (Place.root 2).snoc (l2 i) (by decide) (Ne.symm hnz) := by
      simp [leafOf, slices, h1, h2, Place.root, Place.snoc]
    refine ⟨n3, s₂, hleaf ▸ hg₂, ?_⟩
    simp only [radixSet, h1, h2, if_true, if_false, hroot, hg₁.ne, childL3, hc3, hg₂.ne]
  by_cases h3 : i < 0x1000000
  · simp only [slices, h1, h2, h3, if_false, if_true, List.mem_cons, List.not_mem_nil,
      or_false, not_or] at hnz
    obtain ⟨n1, s₁, hroot, hg₁⟩ := rootL1Node_spec hC h
    obtain ⟨n2, s₂, hc2, hg₂⟩ := hg₁.child (fun s n => { s with rootL2 := n }) hC
      (by decide) (Ne.symm hnz.1)
    obtain ⟨n3, s₃, hc3, hg₃⟩ := hg₂.child (fun s n => { s with rootL3 := n }) hC
      (by simp [Place.IsLeaf, Place.snoc, Place.root]) (Ne.symm hnz.2)
    have hleaf : leafOf i hi = ((Place.root 1).snoc (l1 i) (by decide) (Ne.symm hnz.1)).snoc
        (l2 i) (by simp [Place.IsLeaf, Place.snoc, Place.root]) (Ne.symm hnz.2) := by
      simp [leafOf, slices, h1, h2, h3, Place.root, Place.snoc]
    refine ⟨n3, s₃, hleaf ▸ hg₃, ?_⟩
    simp only [radixSet, h1, h2, h3, if_true, if_false, hroot, hg₁.ne, childL2, hc2,
      hg₂.ne, childL3, hc3, hg₃.ne]
  · simp only [slices, h1, h2, h3, if_false, List.mem_cons, List.not_mem_nil,
      or_false, not_or] at hnz
    obtain ⟨n0, s₁, hroot, hg₁⟩ := rootL0Node_spec hC h
    obtain ⟨n1, s₂, hc1, hg₂⟩ := hg₁.child (fun s n => { s with rootL1 := n }) hC
      (by decide) (Ne.symm hnz.1)
    obtain ⟨n2, s₃, hc2, hg₃⟩ := hg₂.child (fun s n => { s with rootL2 := n }) hC
      (by simp [Place.IsLeaf, Place.snoc, Place.root]) (Ne.symm hnz.2.1)
    obtain ⟨n3, s₄, hc3, hg₄⟩ := hg₃.child (fun s n => { s with rootL3 := n }) hC
      (by simp [Place.IsLeaf, Place.snoc, Place.root]) (Ne.symm hnz.2.2)
    have hleaf : leafOf i hi = (((Place.root 0).snoc (l0 i) (by decide)
        (Ne.symm hnz.1)).snoc (l1 i) (by simp [Place.IsLeaf, Place.snoc, Place.root])
        (Ne.symm hnz.2.1)).snoc (l2 i) (by simp [Place.IsLeaf, Place.snoc, Place.root])
        (Ne.symm hnz.2.2) := by
      simp [leafOf, slices, h1, h2, h3, Place.root, Place.snoc]
    refine ⟨n3, s₄, hleaf ▸ hg₄, ?_⟩
    simp only [radixSet, h1, h2, h3, if_false, hroot, hg₁.ne, childL1, hc1, hg₂.ne,
      childL2, hc2, hg₃.ne, childL3, hc3, hg₄.ne]

/-- One `radix_set` at an index with its own path is one array assignment. -/
theorem radixSet_spec (hC : C.Succeeds) (h : Separated s) {i : UInt32} (hi : OwnPath i)
    (v : Ptr) :
    (radixSet C s i v).1 = 0 ∧ Separated (radixSet C s i v).2 ∧
      ∀ j, radixGet (radixSet C s i v).2 j = if j = i then v else radixGet s j := by
  obtain ⟨n, s', hg, hset⟩ := radixSet_eq hC h hi v
  have hne : s'.addr (leafOf i hi) ≠ 0 := by rw [hg.here]; exact hg.ne
  obtain ⟨hsep, hleaf⟩ := setLeaf_spec hg.sep (leafOf_isLeaf i hi) hne (l3 i) v
  rw [hset, ← hg.here]
  refine ⟨rfl, hsep, ?_⟩
  intro j
  by_cases hj : OwnPath j
  · rw [radixGet_of_ownPath hsep hj, hleaf _ _ (leafOf_isLeaf j hj)]
    by_cases hji : j = i
    · subst hji
      simp
    · rw [if_neg hji, if_neg, hg.same _ (leafOf_isLeaf j hj), radixGet_of_ownPath h hj]
      rintro ⟨haddr, h3⟩
      have hplace := hg.sep.inj _ _ hne haddr.symm
      refine hji (slices_inj (Prod.ext ?_ ?_) h3)
      · exact congrArg Place.level hplace.symm
      · exact congrArg Place.path hplace.symm
  · have hji : j ≠ i := fun e => hj (e ▸ hi)
    rw [if_neg hji, radixGet_of_not_ownPath hsep hj, radixGet_of_not_ownPath h hj]

end

/-! ## Sequences of calls -/

/-- The value of the last `radix_set` at `i`, `NULL` when there was none. -/
def lastSet (ops : List (UInt32 × Ptr)) (i : UInt32) : Ptr :=
  match ops.reverse.find? (fun op => op.1 == i) with
  | some op => op.2
  | none => 0

theorem lastSet_concat (ops : List (UInt32 × Ptr)) (op : UInt32 × Ptr) (i : UInt32) :
    lastSet (ops ++ [op]) i = if i = op.1 then op.2 else lastSet ops i := by
  unfold lastSet
  rw [List.reverse_append, List.reverse_singleton, List.singleton_append, List.find?_cons]
  by_cases h : op.1 = i
  · simp [h]
  · have hb : (op.1 == i) = false := beq_false_of_ne h
    rw [hb, if_neg (Ne.symm h)]

theorem runSets_concat (C : Calloc) (s : State) (ops : List (UInt32 × Ptr))
    (op : UInt32 × Ptr) :
    runSets C s (ops ++ [op]) = (radixSet C (runSets C s ops) op.1 op.2).2 := by
  simp [runSets]

/-- The run lemma: over indices with their own paths the tree stays separated and
every read gives the last value set. -/
theorem runSets_spec {C : Calloc} (hC : C.Succeeds) (ops : List (UInt32 × Ptr))
    (hops : ∀ op ∈ ops, OwnPath op.1) :
    Separated (runSets C radixCreate ops) ∧
      ∀ i, radixGet (runSets C radixCreate ops) i = lastSet ops i := by
  induction ops using List.reverseRecOn with
  | nil =>
    refine ⟨separated_create, fun i => ?_⟩
    rw [radixGet_eq_walk (s := runSets C radixCreate []) separated_create]
    rfl
  | append_singleton ops op ih =>
    obtain ⟨hsep, hget⟩ := ih fun o ho => hops o (by simp [ho])
    obtain ⟨_, hsep', hget'⟩ := radixSet_spec hC hsep (hops op (by simp)) op.2
    rw [runSets_concat]
    refine ⟨hsep', fun i => ?_⟩
    rw [hget', hget, lastSet_concat]

/-- The low slices of an index, as an index. -/
theorem lowIndex_slices (i : UInt32) :
    ∃ j : UInt32, j < 0x100 ∧ l3 j = l3 i := by
  refine ⟨UInt32.ofNat (i.toNat % 2 ^ 8), ?_, ?_⟩
  · rw [UInt32.lt_iff_toNat_lt, UInt32.toNat_ofNat_of_lt' (by norm_num; omega)]
    exact Nat.mod_lt _ (by norm_num)
  · rw [Fin.ext_iff, l3_val, l3_val, UInt32.toNat_ofNat_of_lt' (by norm_num; omega)]
    omega

theorem lowPair_slices {i : UInt32} (hi : l2 i ≠ 0) :
    ∃ j : UInt32, ¬ j < 0x100 ∧ j < 0x10000 ∧ l2 j = l2 i ∧ l3 j = l3 i := by
  have hlt : i.toNat % 2 ^ 16 < UInt32.size := by norm_num [UInt32.size]; omega
  have hl2 : l2 (UInt32.ofNat (i.toNat % 2 ^ 16)) = l2 i := by
    rw [Fin.ext_iff, l2_val, l2_val, UInt32.toNat_ofNat_of_lt' hlt]
    omega
  refine ⟨UInt32.ofNat (i.toNat % 2 ^ 16), ?_, ?_, hl2, ?_⟩
  · rw [lt_100_iff, hl2]
    exact fun e => hi e.2.2
  · rw [UInt32.lt_iff_toNat_lt, UInt32.toNat_ofNat_of_lt' hlt]
    exact Nat.mod_lt _ (by norm_num)
  · rw [Fin.ext_iff, l3_val, l3_val, UInt32.toNat_ofNat_of_lt' hlt]
    omega

/-- On the empty table, `radix_set` at an index without its own path stores the
value at a smaller index too. -/
theorem exists_alias {i : UInt32} (hi : ¬ OwnPath i) (v : Ptr) :
    ∃ j, j ≠ i ∧ radixGet (radixSet Calloc.bump radixCreate i v).2 j = v := by
  have h2 : ¬ i < 0x10000 := fun e => hi (Or.inl e)
  have h1 : ¬ i < 0x100 := fun e =>
    h2 ((lt_10000_iff i).mpr ⟨((lt_100_iff i).mp e).1, ((lt_100_iff i).mp e).2.1⟩)
  by_cases hl2 : l2 i = 0
  · obtain ⟨j, hj, hj3⟩ := lowIndex_slices i
    refine ⟨j, fun e => h1 (e ▸ hj), ?_⟩
    by_cases h3 : i < 0x1000000
    · have hl1 : l1 i ≠ 0 := fun e =>
        h2 ((lt_10000_iff i).mpr ⟨(lt_1000000_iff i).mp h3, e⟩)
      simp [radixSet, radixGet, h1, h2, h3, hl1, hl2, rootL1Node, raiseL2, newNode, childL2,
        childL3, child, radixCreate, State.slot, State.setSlot, Calloc.bump, hj, hj3]
    · have hl0 : l0 i ≠ 0 := fun e => h3 ((lt_1000000_iff i).mpr e)
      by_cases hl1 : l1 i = 0
      · simp [radixSet, radixGet, h1, h2, h3, hl0, hl1, hl2, rootL0Node, raiseL2, raiseL1,
          newNode, childL1, childL2, childL3, child, radixCreate, State.slot,
          State.setSlot, Calloc.bump, hj, hj3]
      · simp [radixSet, radixGet, h1, h2, h3, hl0, hl1, hl2, rootL0Node, raiseL2, raiseL1,
          newNode, childL1, childL2, childL3, child, radixCreate, State.slot,
          State.setSlot, Calloc.bump, hj, hj3]
  · have h3 : ¬ i < 0x1000000 := fun e => hi (Or.inr ⟨hl2, Or.inl e⟩)
    have hl1 : l1 i = 0 := by
      by_contra hne
      exact hi (Or.inr ⟨hl2, Or.inr hne⟩)
    have hl0 : l0 i ≠ 0 := fun e => h3 ((lt_1000000_iff i).mpr e)
    obtain ⟨j, hj1, hj, hj2, hj3⟩ := lowPair_slices hl2
    refine ⟨j, fun e => h2 (e ▸ hj), ?_⟩
    simp [radixSet, radixGet, h1, h2, h3, hl0, hl1, hl2, rootL0Node, raiseL2, raiseL1,
      newNode, childL1, childL2, childL3, child, radixCreate, State.slot, State.setSlot,
      Calloc.bump, hj1, hj, hj2, hj3]

/-- The radix tree is an array over a set of indices exactly when every index of
the set has its own path: then, for any allocator that does not fail and any
sequence of `radix_set` calls at indices of the set, `radix_get` gives at every
32-bit index the last value set there. -/
theorem radix_isArray_iff (S : Set UInt32) :
    (∀ (C : Calloc), C.Succeeds → ∀ ops : List (UInt32 × Ptr),
        (∀ op ∈ ops, op.1 ∈ S) →
          ∀ i, radixGet (runSets C radixCreate ops) i = lastSet ops i) ↔
      ∀ i ∈ S, OwnPath i := by
  constructor
  · intro h i hi
    by_contra hown
    obtain ⟨j, hji, hj⟩ := exists_alias hown 1
    have harr := h Calloc.bump Calloc.bump_succeeds [(i, 1)] (by simpa using hi) j
    have hset : lastSet [(i, 1)] j = 0 := by
      simp [lastSet, Ne.symm hji]
    rw [hset] at harr
    simp only [runSets, List.foldl_cons, List.foldl_nil] at harr
    rw [hj] at harr
    exact absurd harr (by decide)
  · intro hS C hC ops hops
    exact (runSets_spec hC ops fun op hop => hS _ (hops op hop)).2

/-- After the single call `radix_set(rx, 0x10000, 1)` the table reads 1 at index 0,
where nothing was ever set. -/
theorem radix_index_zero_aliased :
    radixGet (runSets Calloc.bump radixCreate [(0x10000, 1)]) 0 = 1 ∧
      lastSet [(0x10000, 1)] 0 = 0 := by
  decide

end Ko6.Common.Radix
