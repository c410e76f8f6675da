import Ko6.Common.RadixArray

set_option autoImplicit false

/-!
# Common: traversal and cleanup of the radix tree

`radix_foreach` walks down from the highest root, `radix_get` starts from the root
of the smallest level that can hold the index.  Both see the same values while
every shortcut root stands under slot 0 of the level above, as the drawing in
`radix.c` has it.  `radix_set` breaks this when it creates a root below an
existing one, or a node under a slot 0 that is not on the way to a root; all
other calls, `radix_cleanup` among them, keep it.
-/

namespace Ko6.Common.Radix

/-! ## `radix_foreach` -/

/-- `INDEX(i0,i1,i2,i3)`. -/
def index (i0 i1 i2 i3 : Fin radixSlots) : UInt32 :=
  (UInt32.ofNat i0.val <<< 24) ||| (UInt32.ofNat i1.val <<< 16) |||
    (UInt32.ofNat i2.val <<< 8) ||| UInt32.ofNat i3.val

/-- The innermost loop: the callbacks for one leaf. -/
def foreachL3 (s : State) (i0 i1 i2 : Fin radixSlots) (n3 : Ptr) : List (UInt32 × Ptr) :=
  (List.finRange radixSlots).flatMap fun i3 =>
    let val := s.slot n3 i3
    if val = 0 then [] else [(index i0 i1 i2 i3, val)]

def foreachL2 (s : State) (i0 i1 : Fin radixSlots) (n2 : Ptr) : List (UInt32 × Ptr) :=
  (List.finRange radixSlots).flatMap fun i2 =>
    let n3 := s.slot n2 i2
    if n3 = 0 then [] else foreachL3 s i0 i1 i2 n3

def foreachL1 (s : State) (i0 : Fin radixSlots) (n1 : Ptr) : List (UInt32 × Ptr) :=
  (List.finRange radixSlots).flatMap fun i1 =>
    let n2 := s.slot n1 i1
    if n2 = 0 then [] else foreachL2 s i0 i1 n2

def foreachL0 (s : State) (n0 : Ptr) : List (UInt32 × Ptr) :=
  (List.finRange radixSlots).flatMap fun i0 =>
    let n1 := s.slot n0 i0
    if n1 = 0 then [] else foreachL1 s i0 n1

/-- `radix_foreach`: the calls of `fn`, in order, with their index and value. -/
def radixForeach (s : State) : List (UInt32 × Ptr) :=
  if s.rootL0 ≠ 0 then foreachL0 s s.rootL0
  else if s.rootL1 ≠ 0 then foreachL1 s 0 s.rootL1
  else if s.rootL2 ≠ 0 then foreachL2 s 0 0 s.rootL2
  else if s.rootL3 ≠ 0 then foreachL3 s 0 0 0 s.rootL3
  else []

/-! ## `radix_cleanup` -/

/-- A `radix_node_t **`: where a pointer to a node is stored. -/
inductive PNode where
  | root (r : Fin 4)
  | slot (n : Ptr) (k : Fin radixSlots)

/-- `*pnode`. -/
def State.load (s : State) : PNode → Ptr
  | .root r => s.root r
  | .slot n k => s.slot n k

/-- `*pnode = v`. -/
def State.store (s : State) (v : Ptr) : PNode → State
  | .root r => s.setRoot r v
  | .slot n k => s.setSlot n k v

/-- The end of `cleanup_node`, for an empty node. -/
def freeNode (s : State) (pnode : PNode) (level index : Nat) : State :=
  let s := { s with live := s.live.erase (s.load pnode) }
  let s := s.store 0 pnode
  if index = 0 then
    match level with
    | 1 => { s with rootL1 := 0 }
    | 2 => { s with rootL2 := 0 }
    | 3 => { s with rootL3 := 0 }
    | _ => s
  else s

/-- The body of the loop of `cleanup_node` on `node`, over the recursive call; the
flag is `empty`. -/
def cleanupSlot (self : State → PNode → Nat → State) (node : Ptr) (index : Nat)
    (acc : State × Bool) (i : Fin radixSlots) : State × Bool :=
  let (s, empty) := acc
  if s.slot node i = 0 then (s, empty)
  else
    let s := self s (.slot node i) (index <<< 8 ||| i.val)
    (s, empty && decide (s.slot node i = 0))

/-- The loop of `cleanup_node`. -/
def cleanupSlots (self : State → PNode → Nat → State) (node : Ptr) (index : Nat) (s : State) :
    State × Bool :=
  (List.finRange radixSlots).foldl (cleanupSlot self node index) (s, true)

/-- The end of `cleanup_node`, after its loop. -/
def cleanupEnd (pnode : PNode) (level index : Nat) (acc : State × Bool) : State :=
  if acc.2 then freeNode acc.1 pnode level index else acc.1

/-- `cleanup_node`, at `levels` levels above the leaves. -/
def cleanupNode : (levels : Nat) → State → PNode → Nat → State
  | 0, s, pnode, index =>
    if ∀ i, s.slot (s.load pnode) i = 0 then freeNode s pnode 3 index else s
  | levels + 1, s, pnode, index =>
    cleanupEnd pnode (2 - levels) index
      (cleanupSlots (cleanupNode levels) (s.load pnode) index s)

/-- `radix_cleanup`. -/
def radixCleanup (s : State) : State :=
  if s.rootL0 ≠ 0 then cleanupNode 3 s (.root 0) 0
  else if s.rootL1 ≠ 0 then cleanupNode 2 s (.root 1) 0
  else if s.rootL2 ≠ 0 then cleanupNode 1 s (.root 2) 0
  else if s.rootL3 ≠ 0 then cleanupNode 0 s (.root 3) 0
  else s

/-! ## Linked roots -/

/-- Each root but the last stands in slot 0 of the one above it, and below a missing
root there is none. -/
structure Linked (s : State) : Prop where
  link : ∀ r q : Fin 4, q.val = r.val + 1 → s.root r ≠ 0 → s.slot (s.root r) 0 = s.root q
  gapless : ∀ r q p : Fin 4, r < q → q < p → s.root r ≠ 0 → s.root q = 0 → s.root p = 0

/-- `radix_set` at `i` keeps the roots linked: the index has its own path, and the
root its walk starts from exists or has no root above it. -/
def Orderly (s : State) (i : UInt32) : Prop :=
  OwnPath i ∧ (s.root (slices i).1 ≠ 0 ∨ ∀ q < (slices i).1, s.root q = 0)

instance (s : State) (i : UInt32) : Decidable (Orderly s i) :=
  inferInstanceAs (Decidable (_ ∧ _))

/-! The four levels. -/

theorem no_next_three : ∀ q : Fin 4, ¬ q.val = (3 : Fin 4).val + 1 := by decide
theorem no_root_below_two : ∀ q p : Fin 4, 2 < q → ¬ q < p := by decide
theorem roots_above_one : ∀ q : Fin 4, q < 1 → q = 0 := by decide
theorem roots_above_two : ∀ q : Fin 4, q < 2 → q = 0 ∨ q = 1 := by decide
theorem roots_above_three : ∀ q : Fin 4, q < 3 → q = 0 ∨ q = 1 ∨ q = 2 := by decide
theorem roots_below_one : ∀ q p : Fin 4, 1 < q → q < p → q = 2 ∧ p = 3 := by decide
theorem roots_below_zero : ∀ q p : Fin 4, 0 < q → q < p →
    (q = 1 ∧ p = 2) ∨ (q = 1 ∧ p = 3) ∨ (q = 2 ∧ p = 3) := by decide

theorem linked_create : Linked radixCreate where
  link r _ _ hr := absurd (by fin_cases r <;> rfl) hr
  gapless r _ _ _ _ hr _ := absurd (by fin_cases r <;> rfl) hr

theorem Linked.congr {s s' : State} (h : Linked s) (hroot : ∀ r, s'.root r = s.root r)
    (hslot : ∀ r, r ≠ 3 → s.root r ≠ 0 → s'.slot (s.root r) 0 = s.slot (s.root r) 0) :
    Linked s' := by
  constructor
  · intro r q hq hr
    rw [hroot] at hr
    have hr3 : r ≠ 3 := by
      rintro rfl
      exact no_next_three q hq
    rw [hroot, hroot, hslot r hr3 hr]
    exact h.link r q hq hr
  · intro r q p hrq hqp hr hq
    rw [hroot] at hr hq ⊢
    exact h.gapless r q p hrq hqp hr hq

/-- A new root `r` that no root is above. -/
theorem Linked.raise {s s' : State} {r : Fin 4} {a : Ptr} (h : Linked s)
    (hroot : ∀ q, s'.root q = if q = r then a else s.root q)
    (habove : ∀ q < r, s.root q = 0)
    (hslot : ∀ q, q ≠ 3 → s.root q ≠ 0 → s'.slot (s.root q) 0 = s.slot (s.root q) 0)
    (hself : ∀ q : Fin 4, q.val = r.val + 1 → s'.slot a 0 = s.root q)
    (hbelow : ∀ q p : Fin 4, r < q → q < p → s.root q = 0 → s.root p = 0)
    (hr : s.root r = 0) : Linked s' := by
  constructor
  · intro p q hq hp
    rw [hroot] at hp ⊢
    by_cases hpr : p = r
    · subst hpr
      have hqp : q ≠ p := by
        rintro rfl
        omega
      rw [if_pos rfl, hroot, if_neg hqp]
      exact hself q hq
    · rw [if_neg hpr] at hp ⊢
      have hqr : q ≠ r := by
        rintro rfl
        exact hp (habove p (by rw [Fin.lt_def]; omega))
      have hp3 : p ≠ 3 := by
        rintro rfl
        exact no_next_three q hq
      rw [hroot, if_neg hqr, hslot p hp3 hp]
      exact h.link p q hq hp
  · intro p q t hpq hqt hp hq
    rw [hroot] at hp hq ⊢
    by_cases hpr : p = r
    · subst hpr
      have hqp : q ≠ p := hpq.ne'
      have htp : t ≠ p := (hpq.trans hqt).ne'
      rw [if_neg hqp] at hq
      rw [if_neg htp]
      exact hbelow q t hpq hqt hq
    · rw [if_neg hpr] at hp
      -- the roots above the new one are missing
      have hrp : r < p := lt_of_le_of_ne (not_lt.mp fun hlt => hp (habove p hlt)) (Ne.symm hpr)
      have hqr : q ≠ r := (hrp.trans hpq).ne'
      have htr : t ≠ r := ((hrp.trans hpq).trans hqt).ne'
      rw [if_neg hqr] at hq
      rw [if_neg htr]
      exact h.gapless p q t hpq hqt hp hq

/-! ## `radix_set` keeps the roots linked -/

/-- The roots and their slots 0 are those of before. -/
structure SameRoots (s s' : State) : Prop where
  root : ∀ r, s'.root r = s.root r
  slot : ∀ r, r ≠ 3 → s.root r ≠ 0 → s'.slot (s.root r) 0 = s.slot (s.root r) 0

theorem SameRoots.refl (s : State) : SameRoots s s := ⟨fun _ => rfl, fun _ _ _ => rfl⟩

theorem SameRoots.trans {s s' s'' : State} (h : SameRoots s s') (h' : SameRoots s' s'') :
    SameRoots s s'' := by
  constructor
  · intro r
    rw [h'.root, h.root]
  · intro r hr3 hr
    have hr' : s'.root r ≠ 0 := by rwa [h.root]
    have hslot := h'.slot r hr3 hr'
    rw [h.root] at hslot
    rw [hslot, h.slot r hr3 hr]

theorem SameRoots.linked {s s' : State} (h : SameRoots s s') (hl : Linked s) : Linked s' :=
  hl.congr h.root h.slot

section
variable {C : Calloc} {s : State}

theorem newNode_slot {s' : State} {a m : Ptr} (hnew : newNode C s = (a, s')) (hm : m ≠ a)
    (k : Fin radixSlots) : s'.slot m k = s.slot m k := by
  simp only [newNode] at hnew
  split at hnew
  · rw [Prod.mk.injEq] at hnew
    rw [← hnew.2]
    rfl
  · rw [Prod.mk.injEq] at hnew
    obtain ⟨ha, rfl⟩ := hnew
    rw [← ha] at hm
    simp only [State.slot, Function.update_of_ne hm]

/-- A new node changes no root and nothing under one. -/
theorem newNode_sameRoots (hC : C.Succeeds) (h : Separated s) :
    ∃ a s', newNode C s = (a, s') ∧ Separated s' ∧ SameRoots s s' ∧ Spare s' a := by
  obtain ⟨a, s', hnew, hsep, _, ha, _, hroot, haddr, _⟩ := newNode_spec hC h
  refine ⟨a, s', hnew, hsep, ⟨hroot, ?_⟩, ha⟩
  intro r _ _
  apply newNode_slot hnew
  rw [← hroot r, ← addr_root]
  exact ha.unplaced _

theorem child_sameRoots (setRoot : State → Ptr → State) {n m : Ptr} {k : Fin radixSlots}
    {s' : State} (hC : C.Succeeds) (h : Separated s) (hk : k ≠ 0)
    (hchild : child setRoot C s n k = (m, s')) : SameRoots s s' := by
  unfold child at hchild
  by_cases hn : s.slot n k = 0
  · obtain ⟨a, s₁, hnew, _, hsame, ha⟩ := newNode_sameRoots hC h
    simp only [hn, ne_eq, not_true_eq_false, if_false, hnew, ha.ne, hk, Prod.mk.injEq] at hchild
    rw [← hchild.2]
    apply hsame.trans
    constructor
    · intro r
      rw [root_setSlot]
    · intro r _ _
      rw [slot_setSlot, if_neg fun e => hk e.2.symm]
  · simp only [hn, ne_eq, not_false_eq_true, if_true, Prod.mk.injEq] at hchild
    rw [← hchild.2]
    exact SameRoots.refl s

/-- A spare node with `root_l<r+1>` in its slot 0 becomes `root_l<r>`. -/
theorem Linked.install {r : Fin 4} {a v : Ptr} (hl : Linked s) (hr : s.root r = 0)
    (ha : Spare s a) (habove : ∀ q < r, s.root q = 0)
    (hv : ∀ q : Fin 4, q.val = r.val + 1 → v = s.root q)
    (hbelow : ∀ q p : Fin 4, r < q → q < p → s.root q = 0 → s.root p = 0) :
    Linked ((s.setSlot a 0 v).setRoot r a) := by
  apply hl.raise (r := r) (a := a) _ habove _ _ hbelow hr
  · intro q
    rw [root_setRoot, root_setSlot]
  · intro q _ _
    have hqa : s.root q ≠ a := ha.unplaced (Place.root q)
    rw [slot_setRoot, slot_setSlot, if_neg fun e => hqa e.1]
  · intro q hq
    rw [slot_setRoot, slot_setSlot, if_pos ⟨rfl, rfl⟩]
    exact hv q hq

/-- Setting a root and filling its slot 0 in the other order. -/
theorem setRoot_setSlot (s : State) (r : Fin 4) (a v : Ptr) :
    (s.setRoot r a).setSlot a 0 v = (s.setSlot a 0 v).setRoot r a := by
  fin_cases r <;> rfl

theorem rootL3Node_linked (hC : C.Succeeds) (h : Separated s) (hl : Linked s)
    (ho : s.root 3 ≠ 0 ∨ ∀ q < 3, s.root q = 0) : Linked (rootL3Node C s).2 := by
  by_cases hn : s.rootL3 = 0
  · obtain ⟨a, s₁, hnew, _, hsame, ha⟩ := newNode_sameRoots hC h
    have habove : ∀ q < 3, s.root q = 0 := ho.resolve_left fun hne => hne hn
    have heq : (rootL3Node C s).2 = s₁.setRoot 3 a := by
      simp only [rootL3Node, hn, ne_eq, not_true_eq_false, if_false, hnew, ha.ne]
      rfl
    rw [heq]
    apply (hsame.linked hl).raise (r := 3) (a := a)
    · exact fun q => root_setRoot s₁ 3 q a
    · intro q hq
      rw [hsame.root]
      exact habove q hq
    · exact fun q _ _ => slot_setRoot s₁ 3 a _ 0
    · exact fun q hq => absurd hq (no_next_three q)
    · exact fun q p hq hp => absurd hp (no_root_below_two q p (lt_trans (by decide) hq))
    · rw [hsame.root]
      exact hn
  · have heq : (rootL3Node C s).2 = s := by simp [rootL3Node, hn]
    rwa [heq]

/-- A new node becomes `root_l2`, over `root_l3`. -/
theorem SameRoots.install_two {s₁ : State} {a : Ptr} (hsame : SameRoots s s₁) (hl : Linked s)
    (ha : Spare s₁ a) (h2 : s.root 2 = 0) (habove : ∀ q < 2, s.root q = 0) :
    Linked ((s₁.setSlot a 0 s₁.rootL3).setRoot 2 a) := by
  apply (hsame.linked hl).install _ ha
  · intro q hq
    rw [hsame.root]
    exact habove q hq
  · intro q hq
    have hq3 : q = 3 := Fin.ext hq
    rw [hq3]
    rfl
  · exact fun q p hq hp => absurd hp (no_root_below_two q p hq)
  · rw [hsame.root]
    exact h2

theorem rootL2Node_linked (hC : C.Succeeds) (h : Separated s) (hl : Linked s)
    (ho : s.root 2 ≠ 0 ∨ ∀ q < 2, s.root q = 0) : Linked (rootL2Node C s).2 := by
  by_cases hn : s.rootL2 = 0
  · obtain ⟨a, s₁, hnew, _, hsame, ha⟩ := newNode_sameRoots hC h
    have habove : ∀ q < 2, s.root q = 0 := ho.resolve_left fun hne => hne hn
    have heq : (rootL2Node C s).2 = (s₁.setSlot a 0 s₁.rootL3).setRoot 2 a := by
      simp only [rootL2Node, hn, ne_eq, not_true_eq_false, if_false, hnew, ha.ne]
      rfl
    rw [heq]
    exact hsame.install_two hl ha hn habove
  · have heq : (rootL2Node C s).2 = s := by simp [rootL2Node, hn]
    rwa [heq]

theorem raiseL2_linked (hC : C.Succeeds) (h : Separated s) (hl : Linked s) (h0 : s.root 0 = 0) :
    Linked (raiseL2 C s).2 ∧ ((raiseL2 C s).2.root 2 = 0 → (raiseL2 C s).2.root 3 = 0) ∧
      (raiseL2 C s).2.root 0 = s.root 0 ∧ (raiseL2 C s).2.root 1 = s.root 1 := by
  by_cases hcond : s.rootL2 = 0 ∧ s.rootL3 ≠ 0
  · obtain ⟨a, s₁, hnew, _, hsame, ha⟩ := newNode_sameRoots hC h
    have heq : (raiseL2 C s).2 = (s₁.setSlot a 0 s₁.rootL3).setRoot 2 a := by
      rw [← setRoot_setSlot]
      simp only [raiseL2, hcond, ne_eq, not_false_eq_true, and_self, if_true, hnew, ha.ne,
        if_false]
      rfl
    have h1 : s.root 1 = 0 := by
      by_contra h1
      exact hcond.2 (hl.gapless 1 2 3 (by decide) (by decide) h1 hcond.1)
    rw [heq]
    refine ⟨?_, ?_, ?_, ?_⟩
    · refine hsame.install_two hl ha hcond.1 fun q hq => ?_
      rcases roots_above_two q hq with rfl | rfl
      · exact h0
      · exact h1
    · intro hr2
      rw [root_setRoot, if_pos rfl] at hr2
      exact absurd hr2 ha.ne
    · rw [root_setRoot, if_neg (by decide), root_setSlot, hsame.root]
    · rw [root_setRoot, if_neg (by decide), root_setSlot, hsame.root]
  · have heq : (raiseL2 C s).2 = s := by rw [raiseL2, if_neg hcond]
    rw [heq]
    refine ⟨hl, fun hr2 => ?_, rfl, rfl⟩
    by_contra hr3
    exact hcond ⟨hr2, hr3⟩

theorem raiseL1_linked (hC : C.Succeeds) (h : Separated s) (hl : Linked s) (h0 : s.root 0 = 0)
    (h23 : s.root 2 = 0 → s.root 3 = 0) :
    Linked (raiseL1 C s).2 ∧ (raiseL1 C s).2.root 0 = s.root 0 ∧
      ((raiseL1 C s).2.root 1 = 0 → (raiseL1 C s).2.root 2 = 0) ∧
      ((raiseL1 C s).2.root 2 = 0 → (raiseL1 C s).2.root 3 = 0) := by
  by_cases hcond : s.rootL1 = 0 ∧ s.rootL2 ≠ 0
  · obtain ⟨a, s₁, hnew, _, hsame, ha⟩ := newNode_sameRoots hC h
    have heq : (raiseL1 C s).2 = (s₁.setSlot a 0 s₁.rootL2).setRoot 1 a := by
      rw [← setRoot_setSlot]
      simp only [raiseL1, hcond, ne_eq, not_false_eq_true, and_self, if_true, hnew, ha.ne,
        if_false]
      rfl
    rw [heq]
    refine ⟨?_, ?_, ?_, ?_⟩
    · apply (hsame.linked hl).install _ ha
      · intro q hq
        rw [hsame.root]
        rw [roots_above_one q hq]
        exact h0
      · intro q hq
        have hq2 : q = 2 := Fin.ext hq
        rw [hq2]
        rfl
      · intro q p hq hp hq0
        rw [hsame.root] at hq0 ⊢
        have hqp := roots_below_one q p hq hp
        rw [hqp.1] at hq0
        rw [hqp.2]
        exact h23 hq0
      · rw [hsame.root]
        exact hcond.1
    · rw [root_setRoot, if_neg (by decide), root_setSlot, hsame.root]
    · intro hr1
      rw [root_setRoot, if_pos rfl] at hr1
      exact absurd hr1 ha.ne
    · rw [root_setRoot, if_neg (by decide), root_setSlot, root_setRoot, if_neg (by decide),
        root_setSlot, hsame.root, hsame.root]
      exact h23
  · have heq : (raiseL1 C s).2 = s := by rw [raiseL1, if_neg hcond]
    rw [heq]
    refine ⟨hl, rfl, fun hr1 => ?_, h23⟩
    by_contra hr2
    exact hcond ⟨hr1, hr2⟩

theorem rootL1Node_linked (hC : C.Succeeds) (h : Separated s) (hl : Linked s)
    (ho : s.root 1 ≠ 0 ∨ ∀ q < 1, s.root q = 0) : Linked (rootL1Node C s).2 := by
  by_cases hn : s.rootL1 = 0
  · obtain ⟨a, s₁, hnew, h₁, hsame, ha⟩ := newNode_sameRoots hC h
    have h0 : s₁.root 0 = 0 := by
      rw [hsame.root]
      exact ho.resolve_left (fun hne => hne hn) 0 (by decide)
    obtain ⟨s₂, hraise, _, _, _, _, hspare⟩ := raiseL2_spec hC h₁
    have hlink := raiseL2_linked hC h₁ (hsame.linked hl) h0
    rw [hraise] at hlink
    obtain ⟨hl₂, h23, hr0, hr1⟩ := hlink
    have heq : (rootL1Node C s).2 = (s₂.setSlot a 0 s₂.rootL2).setRoot 1 a := by
      simp only [rootL1Node, hn, ne_eq, not_true_eq_false, if_false, hnew, ha.ne, hraise,
        Bool.true_eq_false]
      rfl
    rw [heq]
    apply hl₂.install _ (hspare a ha)
    · intro q hq
      rw [roots_above_one q hq, hr0, h0]
    · intro q hq
      have hq2 : q = 2 := Fin.ext hq
      rw [hq2]
      rfl
    · intro q p hq hp hq0
      have hqp := roots_below_one q p hq hp
      rw [hqp.1] at hq0
      rw [hqp.2]
      exact h23 hq0
    · rw [hr1, hsame.root]
      exact hn
  · have heq : (rootL1Node C s).2 = s := by simp [rootL1Node, hn]
    rwa [heq]

theorem rootL0Node_linked (hC : C.Succeeds) (h : Separated s) (hl : Linked s) :
    Linked (rootL0Node C s).2 := by
  by_cases hn : s.rootL0 = 0
  · obtain ⟨a, s₁, hnew, h₁, hsame, ha⟩ := newNode_sameRoots hC h
    have h0 : s₁.root 0 = 0 := by
      rw [hsame.root]
      exact hn
    obtain ⟨s₂, hraise₂, h₂, _, _, _, hspare₂⟩ := raiseL2_spec hC h₁
    have hlink₂ := raiseL2_linked hC h₁ (hsame.linked hl) h0
    rw [hraise₂] at hlink₂
    obtain ⟨hl₂, h23, hr0, hr1⟩ := hlink₂
    obtain ⟨s₃, hraise₃, _, _, _, hspare₃⟩ := raiseL1_spec hC h₂
    have hlink₃ := raiseL1_linked hC h₂ hl₂ (hr0.trans h0) h23
    rw [hraise₃] at hlink₃
    obtain ⟨hl₃, hr0', h12', h23'⟩ := hlink₃
    have heq : (rootL0Node C s).2 = (s₃.setSlot a 0 s₃.rootL1).setRoot 0 a := by
      simp only [rootL0Node, hn, ne_eq, not_true_eq_false, if_false, hnew, ha.ne, hraise₂,
        hraise₃, Bool.true_eq_false]
      rfl
    rw [heq]
    apply hl₃.install _ (hspare₃ a (hspare₂ a ha))
    · exact fun q hq => absurd hq (Fin.not_lt_zero q)
    · intro q hq
      have hq1 : q = 1 := Fin.ext hq
      rw [hq1]
      rfl
    · intro q p hq hp hq0
      rcases roots_below_zero q p hq hp with ⟨rfl, rfl⟩ | ⟨rfl, rfl⟩ | ⟨rfl, rfl⟩
      · exact h12' hq0
      · exact h23' (h12' hq0)
      · exact h23' hq0
    · rw [hr0', hr0, h0]
  · have heq : (rootL0Node C s).2 = s := by simp [rootL0Node, hn]
    rwa [heq]

/-- A write to a leaf is not under slot 0 of a root. -/
theorem setLeaf_sameRoots {P : Place} (h : Separated s) (hP : P.IsLeaf) (hne : s.addr P ≠ 0)
    (k : Fin radixSlots) (v : Ptr) : SameRoots s (s.setSlot (s.addr P) k v) := by
  constructor
  · intro r
    rw [root_setSlot]
  · intro r hr3 _
    rw [slot_setSlot, if_neg]
    rintro ⟨hroot, -⟩
    have hplace : P = Place.root r := h.inj P (Place.root r) hne hroot.symm
    rw [hplace] at hP
    exact hr3 (Fin.ext (by simpa [Place.IsLeaf, Place.root] using hP))

/-- One more level, which is not under slot 0. -/
theorem Grown.child_linked {s' : State} {P : Place} {n : Ptr} (hg : Grown s P n s')
    (hl : Linked s') (setRoot : State → Ptr → State) (hC : C.Succeeds) {k : Fin radixSlots}
    (hP : ¬ P.IsLeaf) (hk : k ≠ 0) :
    ∃ m s'', Radix.child setRoot C s' n k = (m, s'') ∧ Grown s (P.snoc k hP hk) m s'' ∧
      Linked s'' := by
  obtain ⟨m, s'', hchild, hg'⟩ := hg.child setRoot hC hP hk
  exact ⟨m, s'', hchild, hg', (child_sameRoots setRoot hC hg.sep hk hchild).linked hl⟩

theorem Grown.setLeaf_linked {s' : State} {P : Place} {n : Ptr} (hg : Grown s P n s')
    (hl : Linked s') (hP : P.IsLeaf) (k : Fin radixSlots) (v : Ptr) :
    Linked (s'.setSlot n k v) := by
  have hne : s'.addr P ≠ 0 := by
    rw [hg.here]
    exact hg.ne
  have hsame := setLeaf_sameRoots hg.sep hP hne k v
  rw [hg.here] at hsame
  exact hsame.linked hl

/-- The step lemma of `radix_set`: an orderly call keeps the roots linked. -/
theorem radixSet_linked (hC : C.Succeeds) (h : Separated s) (hl : Linked s) {i : UInt32}
    (ho : Orderly s i) (v : Ptr) : Linked (radixSet C s i v).2 := by
  obtain ⟨hown, hroot⟩ := ho
  have hnz := slices_nonzero hown
  by_cases h1 : i < 0x100
  · simp only [slices, h1, if_true] at hroot
    have hl₁ := rootL3Node_linked hC h hl hroot
    obtain ⟨n, s₁, heq, hg⟩ := rootL3Node_spec hC h
    rw [heq] at hl₁
    simp only [radixSet, h1, if_true, heq, hg.ne, if_false]
    exact hg.setLeaf_linked hl₁ (by simp [Place.IsLeaf, Place.root]) _ v
  by_cases h2 : i < 0x10000
  · simp only [slices, h1, h2, if_true, if_false] at hroot
    simp only [slices, h1, h2, if_false, if_true, List.mem_singleton] at hnz
    have hl₁ := rootL2Node_linked hC h hl hroot
    obtain ⟨n2, s₁, heq, hg₁⟩ := rootL2Node_spec hC h
    rw [heq] at hl₁
    obtain ⟨n3, s₂, hc3, hg₂, hl₂⟩ := hg₁.child_linked hl₁ (fun s n => { s with rootL3 := n }) hC
      (by decide) (Ne.symm hnz)
    simp only [radixSet, h1, h2, if_true, if_false, heq, hg₁.ne, childL3, hc3, hg₂.ne]
    exact hg₂.setLeaf_linked hl₂ (by simp [Place.IsLeaf, Place.snoc, Place.root]) _ v
  by_cases h3 : i < 0x1000000
  · simp only [slices, h1, h2, h3, if_true, if_false] at hroot
    simp only [slices, h1, h2, h3, if_false, if_true, List.mem_cons, List.not_mem_nil,
      or_false, not_or] at hnz
    have hl₁ := rootL1Node_linked hC h hl hroot
    obtain ⟨n1, s₁, heq, hg₁⟩ := rootL1Node_spec hC h
    rw [heq] at hl₁
    obtain ⟨n2, s₂, hc2, hg₂, hl₂⟩ := hg₁.child_linked hl₁ (fun s n => { s with rootL2 := n }) hC
      (by decide) (Ne.symm hnz.1)
    obtain ⟨n3, s₃, hc3, hg₃, hl₃⟩ := hg₂.child_linked hl₂ (fun s n => { s with rootL3 := n }) hC
      (by simp [Place.IsLeaf, Place.snoc, Place.root]) (Ne.symm hnz.2)
    simp only [radixSet, h1, h2, h3, if_true, if_false, heq, hg₁.ne, childL2, hc2, hg₂.ne,
      childL3, hc3, hg₃.ne]
    exact hg₃.setLeaf_linked hl₃ (by simp [Place.IsLeaf, Place.snoc, Place.root]) _ v
  · simp only [slices, h1, h2, h3, if_false, List.mem_cons, List.not_mem_nil,
      or_false, not_or] at hnz
    have hl₁ := rootL0Node_linked hC h hl
    obtain ⟨n0, s₁, heq, hg₁⟩ := rootL0Node_spec hC h
    rw [heq] at hl₁
    obtain ⟨n1, s₂, hc1, hg₂, hl₂⟩ := hg₁.child_linked hl₁ (fun s n => { s with rootL1 := n }) hC
      (by decide) (Ne.symm hnz.1)
    obtain ⟨n2, s₃, hc2, hg₃, hl₃⟩ := hg₂.child_linked hl₂ (fun s n => { s with rootL2 := n }) hC
      (by simp [Place.IsLeaf, Place.snoc, Place.root]) (Ne.symm hnz.2.1)
    obtain ⟨n3, s₄, hc3, hg₄, hl₄⟩ := hg₃.child_linked hl₃ (fun s n => { s with rootL3 := n }) hC
      (by simp [Place.IsLeaf, Place.snoc, Place.root]) (Ne.symm hnz.2.2)
    simp only [radixSet, h1, h2, h3, if_false, heq, hg₁.ne, childL1, hc1, hg₂.ne,
      childL2, hc2, hg₃.ne, childL3, hc3, hg₄.ne]
    exact hg₄.setLeaf_linked hl₄ (by simp [Place.IsLeaf, Place.snoc, Place.root]) _ v

end

/-! ## The traversal meets every value in order -/

theorem index_toNat (i0 i1 i2 i3 : Fin radixSlots) :
    (index i0 i1 i2 i3).toNat = 2 ^ 24 * i0.val + 2 ^ 16 * i1.val + 2 ^ 8 * i2.val + i3.val := by
  have h0 : i0.val < 256 := i0.isLt
  have h1 : i1.val < 256 := i1.isLt
  have h2 : i2.val < 256 := i2.isLt
  have h3 : i3.val < 256 := i3.isLt
  have hshift : ∀ (k : Nat) (c : UInt32), c.toNat < 32 → k < 256 → 256 * 2 ^ c.toNat ≤ 2 ^ 32 →
      (UInt32.ofNat k <<< c).toNat = k <<< c.toNat := by
    intro k c hc hk hfit
    have hlt : k * 2 ^ c.toNat < 2 ^ 32 :=
      Nat.lt_of_lt_of_le (Nat.mul_lt_mul_of_pos_right hk (Nat.two_pow_pos _)) hfit
    rw [UInt32.toNat_shiftLeft, UInt32.toNat_ofNat_of_lt' (by norm_num [UInt32.size]; omega),
      Nat.mod_eq_of_lt hc, Nat.shiftLeft_eq, Nat.mod_eq_of_lt hlt]
  rw [index, UInt32.toNat_or, UInt32.toNat_or, UInt32.toNat_or,
    hshift _ 24 (by decide) h0 (by decide), hshift _ 16 (by decide) h1 (by decide),
    hshift _ 8 (by decide) h2 (by decide),
    UInt32.toNat_ofNat_of_lt' (by norm_num [UInt32.size]; omega)]
  show i0.val <<< 24 ||| i1.val <<< 16 ||| i2.val <<< 8 ||| i3.val = _
  -- the slices do not overlap
  rw [Nat.or_assoc, Nat.or_assoc,
    ← Nat.shiftLeft_add_eq_or_of_lt (show i3.val < 2 ^ 8 by omega),
    ← Nat.shiftLeft_add_eq_or_of_lt
      (show i2.val <<< 8 + i3.val < 2 ^ 16 by rw [Nat.shiftLeft_eq]; omega),
    ← Nat.shiftLeft_add_eq_or_of_lt
      (show i1.val <<< 16 + (i2.val <<< 8 + i3.val) < 2 ^ 24 by
        rw [Nat.shiftLeft_eq, Nat.shiftLeft_eq]; omega)]
  simp only [Nat.shiftLeft_eq]
  omega

theorem l0_index (i0 i1 i2 i3 : Fin radixSlots) : l0 (index i0 i1 i2 i3) = i0 := by
  have h0 : i0.val < 256 := i0.isLt
  have h1 : i1.val < 256 := i1.isLt
  have h2 : i2.val < 256 := i2.isLt
  have h3 : i3.val < 256 := i3.isLt
  rw [Fin.ext_iff, l0_val, index_toNat]
  omega

theorem l1_index (i0 i1 i2 i3 : Fin radixSlots) : l1 (index i0 i1 i2 i3) = i1 := by
  have h0 : i0.val < 256 := i0.isLt
  have h1 : i1.val < 256 := i1.isLt
  have h2 : i2.val < 256 := i2.isLt
  have h3 : i3.val < 256 := i3.isLt
  rw [Fin.ext_iff, l1_val, index_toNat]
  omega

theorem l2_index (i0 i1 i2 i3 : Fin radixSlots) : l2 (index i0 i1 i2 i3) = i2 := by
  have h0 : i0.val < 256 := i0.isLt
  have h1 : i1.val < 256 := i1.isLt
  have h2 : i2.val < 256 := i2.isLt
  have h3 : i3.val < 256 := i3.isLt
  rw [Fin.ext_iff, l2_val, index_toNat]
  omega

theorem l3_index (i0 i1 i2 i3 : Fin radixSlots) : l3 (index i0 i1 i2 i3) = i3 := by
  have h0 : i0.val < 256 := i0.isLt
  have h1 : i1.val < 256 := i1.isLt
  have h2 : i2.val < 256 := i2.isLt
  have h3 : i3.val < 256 := i3.isLt
  rw [Fin.ext_iff, l3_val, index_toNat]
  omega

theorem index_slices (i : UInt32) : index (l0 i) (l1 i) (l2 i) (l3 i) = i :=
  eq_of_slices (l0_index _ _ _ _) (l1_index _ _ _ _) (l2_index _ _ _ _) (l3_index _ _ _ _)

/-- What one loop of the traversal meets: an absent slot is skipped. -/
theorem mem_slots {x : UInt32 × Ptr} {g : Fin radixSlots → Ptr}
    {f : Fin radixSlots → Ptr → List (UInt32 × Ptr)} :
    x ∈ (List.finRange radixSlots).flatMap (fun k => if g k = 0 then [] else f k (g k)) ↔
      ∃ k, g k ≠ 0 ∧ x ∈ f k (g k) := by
  rw [List.mem_flatMap]
  constructor
  · rintro ⟨k, -, hx⟩
    by_cases hk : g k = 0
    · rw [if_pos hk] at hx
      exact absurd hx List.not_mem_nil
    · rw [if_neg hk] at hx
      exact ⟨k, hk, hx⟩
  · rintro ⟨k, hk, hx⟩
    refine ⟨k, List.mem_finRange k, ?_⟩
    rwa [if_neg hk]

section
variable {s : State} {i0 i1 i2 : Fin radixSlots} {n : Ptr} {i : UInt32} {v : Ptr}

theorem mem_foreachL3 : (i, v) ∈ foreachL3 s i0 i1 i2 n ↔
    l0 i = i0 ∧ l1 i = i1 ∧ l2 i = i2 ∧ v ≠ 0 ∧ s.slot n (l3 i) = v := by
  unfold foreachL3
  rw [mem_slots (f := fun k val => [(index i0 i1 i2 k, val)])]
  constructor
  · rintro ⟨k, hk, hx⟩
    rw [List.mem_singleton, Prod.mk.injEq] at hx
    obtain ⟨rfl, rfl⟩ := hx
    exact ⟨l0_index _ _ _ _, l1_index _ _ _ _, l2_index _ _ _ _, hk, by rw [l3_index]⟩
  · rintro ⟨rfl, rfl, rfl, hv, rfl⟩
    exact ⟨l3 i, hv, by rw [index_slices, List.mem_singleton]⟩

theorem mem_foreachL2 (hnull : ∀ k, s.slot 0 k = 0) : (i, v) ∈ foreachL2 s i0 i1 n ↔
    l0 i = i0 ∧ l1 i = i1 ∧ v ≠ 0 ∧ s.slot (s.walk n [l2 i]) (l3 i) = v := by
  unfold foreachL2
  rw [mem_slots (f := fun k m => foreachL3 s i0 i1 k m)]
  constructor
  · rintro ⟨k, -, hx⟩
    obtain ⟨h0, h1, rfl, hv, heq⟩ := mem_foreachL3.mp hx
    exact ⟨h0, h1, hv, heq⟩
  · rintro ⟨h0, h1, hv, heq⟩
    refine ⟨l2 i, fun hn => hv ?_, mem_foreachL3.mpr ⟨h0, h1, rfl, hv, heq⟩⟩
    rw [← heq, State.walk, List.foldl_cons, List.foldl_nil, hn, hnull]

theorem mem_foreachL1 (hnull : ∀ k, s.slot 0 k = 0) : (i, v) ∈ foreachL1 s i0 n ↔
    l0 i = i0 ∧ v ≠ 0 ∧ s.slot (s.walk n [l1 i, l2 i]) (l3 i) = v := by
  unfold foreachL1
  rw [mem_slots (f := fun k m => foreachL2 s i0 k m)]
  constructor
  · rintro ⟨k, -, hx⟩
    obtain ⟨h0, rfl, hv, heq⟩ := (mem_foreachL2 hnull).mp hx
    exact ⟨h0, hv, heq⟩
  · rintro ⟨h0, hv, heq⟩
    refine ⟨l1 i, fun hn => hv ?_, (mem_foreachL2 hnull).mpr ⟨h0, rfl, hv, heq⟩⟩
    rw [← heq]
    simp only [State.walk, List.foldl_cons, List.foldl_nil, hn, hnull]

theorem mem_foreachL0 (hnull : ∀ k, s.slot 0 k = 0) : (i, v) ∈ foreachL0 s n ↔
    v ≠ 0 ∧ s.slot (s.walk n [l0 i, l1 i, l2 i]) (l3 i) = v := by
  unfold foreachL0
  rw [mem_slots (f := fun k m => foreachL1 s k m)]
  constructor
  · rintro ⟨k, -, hx⟩
    obtain ⟨rfl, hv, heq⟩ := (mem_foreachL1 hnull).mp hx
    exact ⟨hv, heq⟩
  · rintro ⟨hv, heq⟩
    refine ⟨l0 i, fun hn => hv ?_, (mem_foreachL1 hnull).mpr ⟨rfl, hv, heq⟩⟩
    rw [← heq]
    simp only [State.walk, List.foldl_cons, List.foldl_nil, hn, hnull]

/-- From a root at or below an existing one, slot 0 leads to the next root. -/
theorem Linked.walk_cons_zero (hl : Linked s) (hnull : ∀ k, s.slot 0 k = 0) {t r q : Fin 4}
    (ht : s.root t ≠ 0) (htr : t ≤ r) (hq : q.val = r.val + 1) (p : List (Fin radixSlots)) :
    s.walk (s.root r) (0 :: p) = s.walk (s.root q) p := by
  rw [State.walk, List.foldl_cons]
  by_cases hr : s.root r = 0
  · have htr' : t < r := lt_of_le_of_ne htr fun e => ht (e ▸ hr)
    have hqz : s.root q = 0 := hl.gapless t r q htr' (by rw [Fin.lt_def]; omega) ht hr
    rw [hr, hnull, hqz]
    rfl
  · rw [hl.link r q hq hr]
    rfl

/-- `radix_get` reads what the walk down from the highest root reads. -/
theorem radixGet_eq_top (h : Separated s) (hl : Linked s) {t : Fin 4} (ht : s.root t ≠ 0)
    (i : UInt32) (hi : t.val ≤ (slices i).1.val) :
    radixGet s i = s.slot (s.walk (s.root t) ([l0 i, l1 i, l2 i].drop t.val)) (l3 i) := by
  rw [radixGet_eq_walk h]
  have h12 : ∀ p, t.val ≤ 1 → s.walk (s.root 1) (0 :: p) = s.walk (s.root 2) p :=
    fun p hle => hl.walk_cons_zero h.null ht (Fin.le_def.mpr hle) rfl p
  have h23 : ∀ p, t.val ≤ 2 → s.walk (s.root 2) (0 :: p) = s.walk (s.root 3) p :=
    fun p hle => hl.walk_cons_zero h.null ht (Fin.le_def.mpr hle) rfl p
  have h01 : ∀ p, t.val ≤ 0 → s.walk (s.root 0) (0 :: p) = s.walk (s.root 1) p :=
    fun p hle => hl.walk_cons_zero h.null ht (Fin.le_def.mpr hle) rfl p
  congr 1
  unfold slices at hi ⊢
  split_ifs at hi ⊢ with hi1 hi2 hi3
  · obtain ⟨e0, e1, e2⟩ := (lt_100_iff i).mp hi1
    rw [e0, e1, e2]
    fin_cases t
    · exact ((h01 _ (by decide)).trans ((h12 _ (by decide)).trans (h23 _ (by decide)))).symm
    · exact ((h12 _ (by decide)).trans (h23 _ (by decide))).symm
    · exact (h23 _ (by decide)).symm
    · rfl
  · obtain ⟨e0, e1⟩ := (lt_10000_iff i).mp hi2
    rw [e0, e1]
    fin_cases t
    · exact ((h01 _ (by decide)).trans (h12 _ (by decide))).symm
    · exact (h12 _ (by decide)).symm
    · rfl
    · exact absurd hi (by simp)
  · have e0 := (lt_1000000_iff i).mp hi3
    rw [e0]
    fin_cases t
    · exact (h01 _ (by decide)).symm
    · rfl
    · exact absurd hi (by simp)
    · exact absurd hi (by simp)
  · fin_cases t
    · rfl
    · exact absurd hi (by simp)
    · exact absurd hi (by simp)
    · exact absurd hi (by simp)

theorem radixGet_eq_zero (h : Separated s) (i : UInt32) (hi : s.root (slices i).1 = 0) :
    radixGet s i = 0 := by
  rw [radixGet_eq_walk h, hi, walk_zero h.null, h.null]

/-- The root an index starts from, by the slices that are zero. -/
theorem one_le_level_iff (i : UInt32) : 1 ≤ (slices i).1.val ↔ l0 i = 0 := by
  rw [← lt_1000000_iff]
  unfold slices
  split_ifs with h1 h2 h3
  · have h3 : i < 0x1000000 := (lt_1000000_iff i).mpr ((lt_100_iff i).mp h1).1
    simp [h3]
  · have h3 : i < 0x1000000 := (lt_1000000_iff i).mpr ((lt_10000_iff i).mp h2).1
    simp [h3]
  · simp [h3]
  · simp [h3]

theorem two_le_level_iff (i : UInt32) : 2 ≤ (slices i).1.val ↔ l0 i = 0 ∧ l1 i = 0 := by
  rw [← lt_10000_iff]
  unfold slices
  split_ifs with h1 h2 h3
  · obtain ⟨h0, h1, -⟩ := (lt_100_iff i).mp h1
    have h2 : i < 0x10000 := (lt_10000_iff i).mpr ⟨h0, h1⟩
    simp [h2]
  · simp [h2]
  · simp [h2]
  · simp [h2]

theorem three_le_level_iff (i : UInt32) :
    3 ≤ (slices i).1.val ↔ l0 i = 0 ∧ l1 i = 0 ∧ l2 i = 0 := by
  rw [← lt_100_iff]
  unfold slices
  split_ifs with h1 h2 h3
  · simp [h1]
  · simp [h1]
  · simp [h1]
  · simp [h1]

/-- Above the highest root nothing is stored and nothing is read. -/
theorem radixGet_top_iff (h : Separated s) (hl : Linked s) {t : Fin 4} (ht : s.root t ≠ 0)
    (habove : ∀ q < t, s.root q = 0) {P : Prop} (hP : t.val ≤ (slices i).1.val ↔ P) :
    (P ∧ v ≠ 0 ∧ s.slot (s.walk (s.root t) ([l0 i, l1 i, l2 i].drop t.val)) (l3 i) = v) ↔
      v ≠ 0 ∧ radixGet s i = v := by
  by_cases hi : t.val ≤ (slices i).1.val
  · rw [radixGet_eq_top h hl ht i hi]
    exact ⟨fun hx => hx.2, fun hx => ⟨hP.mp hi, hx⟩⟩
  · have hzero := radixGet_eq_zero h i (habove _ (Fin.lt_def.mpr (Nat.lt_of_not_le hi)))
    constructor
    · exact fun hx => absurd (hP.mpr hx.1) hi
    · rintro ⟨hv, heq⟩
      rw [hzero] at heq
      exact absurd heq.symm hv

/-- The calls of `fn` are those at the indices that hold a value. -/
theorem mem_radixForeach (h : Separated s) (hl : Linked s) (i : UInt32) (v : Ptr) :
    (i, v) ∈ radixForeach s ↔ v ≠ 0 ∧ radixGet s i = v := by
  unfold radixForeach
  split_ifs with h0 h1 h2 h3
  · rw [mem_foreachL0 h.null, radixGet_eq_top h hl (t := 0) h0 i (Nat.zero_le _)]
    rfl
  · have habove : ∀ q < (1 : Fin 4), s.root q = 0 := by
      intro q hq
      rw [roots_above_one q hq]
      exact not_not.mp h0
    rw [mem_foreachL1 h.null,
      ← radixGet_top_iff h hl (t := 1) h1 habove (one_le_level_iff i)]
    rfl
  · have habove : ∀ q < (2 : Fin 4), s.root q = 0 := by
      intro q hq
      rcases roots_above_two q hq with rfl | rfl
      · exact not_not.mp h0
      · exact not_not.mp h1
    rw [mem_foreachL2 h.null,
      ← radixGet_top_iff h hl (t := 2) h2 habove (two_le_level_iff i), and_assoc]
    rfl
  · have habove : ∀ q < (3 : Fin 4), s.root q = 0 := by
      intro q hq
      rcases roots_above_three q hq with rfl | rfl | rfl
      · exact not_not.mp h0
      · exact not_not.mp h1
      · exact not_not.mp h2
    rw [mem_foreachL3,
      ← radixGet_top_iff h hl (t := 3) h3 habove (three_le_level_iff i), and_assoc, and_assoc]
    rfl
  · have hroot : s.root (slices i).1 = 0 := by
      have hall : ∀ q, s.root q = 0 := by
        intro q
        fin_cases q
        · exact not_not.mp h0
        · exact not_not.mp h1
        · exact not_not.mp h2
        · exact not_not.mp h3
      exact hall _
    rw [radixGet_eq_zero h i hroot]
    constructor
    · exact fun hx => absurd hx List.not_mem_nil
    · exact fun hx => absurd hx.2.symm hx.1

end

/-! ### The order of the calls -/

/-- The calls in one loop are ordered if those of each slot are and the slots
follow each other. -/
theorem pairwise_slots {g : Fin radixSlots → Ptr}
    {f : Fin radixSlots → Ptr → List (UInt32 × Ptr)}
    (hf : ∀ k, (f k (g k)).Pairwise fun x y => x.1 < y.1)
    (hkj : ∀ k j, k < j → ∀ x ∈ f k (g k), ∀ y ∈ f j (g j), x.1 < y.1) :
    ((List.finRange radixSlots).flatMap fun k => if g k = 0 then [] else f k (g k)).Pairwise
      fun x y => x.1 < y.1 := by
  have hmem : ∀ k x, x ∈ (if g k = 0 then [] else f k (g k)) → x ∈ f k (g k) := by
    intro k x hx
    by_cases hk : g k = 0
    · rw [if_pos hk] at hx
      exact absurd hx List.not_mem_nil
    · rwa [if_neg hk] at hx
  rw [List.pairwise_flatMap]
  constructor
  · intro k _
    by_cases hk : g k = 0
    · rw [if_pos hk]
      exact List.Pairwise.nil
    · rw [if_neg hk]
      exact hf k
  · apply (List.pairwise_lt_finRange radixSlots).imp
    intro k j hlt x hx y hy
    exact hkj k j hlt x (hmem k x hx) y (hmem j y hy)

section
variable {s : State} {i j : UInt32}

/-- Indices are ordered as their slices are, the first one first. -/
theorem lt_of_l0 (h0 : l0 i < l0 j) : i < j := by
  rw [Fin.lt_def, l0_val, l0_val] at h0
  rw [UInt32.lt_iff_toNat_lt]
  omega

theorem lt_of_l1 (h0 : l0 i = l0 j) (h1 : l1 i < l1 j) : i < j := by
  rw [Fin.ext_iff, l0_val, l0_val] at h0
  rw [Fin.lt_def, l1_val, l1_val] at h1
  rw [UInt32.lt_iff_toNat_lt]
  omega

theorem lt_of_l2 (h0 : l0 i = l0 j) (h1 : l1 i = l1 j) (h2 : l2 i < l2 j) : i < j := by
  rw [Fin.ext_iff, l0_val, l0_val] at h0
  rw [Fin.ext_iff, l1_val, l1_val] at h1
  rw [Fin.lt_def, l2_val, l2_val] at h2
  rw [UInt32.lt_iff_toNat_lt]
  omega

theorem lt_of_l3 (h0 : l0 i = l0 j) (h1 : l1 i = l1 j) (h2 : l2 i = l2 j)
    (h3 : l3 i < l3 j) : i < j := by
  rw [Fin.ext_iff, l0_val, l0_val] at h0
  rw [Fin.ext_iff, l1_val, l1_val] at h1
  rw [Fin.ext_iff, l2_val, l2_val] at h2
  rw [Fin.lt_def, l3_val, l3_val] at h3
  rw [UInt32.lt_iff_toNat_lt]
  omega

theorem foreachL3_pairwise (i0 i1 i2 : Fin radixSlots) (n : Ptr) :
    (foreachL3 s i0 i1 i2 n).Pairwise fun x y => x.1 < y.1 := by
  unfold foreachL3
  apply pairwise_slots (f := fun k val => [(index i0 i1 i2 k, val)])
  · exact fun k => List.pairwise_singleton _ _
  · intro k j hkj x hx y hy
    rw [List.mem_singleton] at hx hy
    rw [hx, hy]
    apply lt_of_l3
    · rw [l0_index, l0_index]
    · rw [l1_index, l1_index]
    · rw [l2_index, l2_index]
    · rwa [l3_index, l3_index]

theorem foreachL2_pairwise (i0 i1 : Fin radixSlots) (n : Ptr) :
    (foreachL2 s i0 i1 n).Pairwise fun x y => x.1 < y.1 := by
  unfold foreachL2
  apply pairwise_slots (f := fun k m => foreachL3 s i0 i1 k m)
  · exact fun k => foreachL3_pairwise i0 i1 k _
  · rintro k j hkj ⟨x, v⟩ hx ⟨y, w⟩ hy
    obtain ⟨hx0, hx1, hx2, -⟩ := mem_foreachL3.mp hx
    obtain ⟨hy0, hy1, hy2, -⟩ := mem_foreachL3.mp hy
    apply lt_of_l2 (hx0.trans hy0.symm) (hx1.trans hy1.symm)
    rwa [hx2, hy2]

theorem foreachL1_pairwise (hnull : ∀ k, s.slot 0 k = 0) (i0 : Fin radixSlots) (n : Ptr) :
    (foreachL1 s i0 n).Pairwise fun x y => x.1 < y.1 := by
  unfold foreachL1
  apply pairwise_slots (f := fun k m => foreachL2 s i0 k m)
  · exact fun k => foreachL2_pairwise i0 k _
  · rintro k j hkj ⟨x, v⟩ hx ⟨y, w⟩ hy
    obtain ⟨hx0, hx1, -⟩ := (mem_foreachL2 hnull).mp hx
    obtain ⟨hy0, hy1, -⟩ := (mem_foreachL2 hnull).mp hy
    apply lt_of_l1 (hx0.trans hy0.symm)
    rwa [hx1, hy1]

theorem foreachL0_pairwise (hnull : ∀ k, s.slot 0 k = 0) (n : Ptr) :
    (foreachL0 s n).Pairwise fun x y => x.1 < y.1 := by
  unfold foreachL0
  apply pairwise_slots (f := fun k m => foreachL1 s k m)
  · exact fun k => foreachL1_pairwise hnull k _
  · rintro k j hkj ⟨x, v⟩ hx ⟨y, w⟩ hy
    obtain ⟨hx0, -⟩ := (mem_foreachL1 hnull).mp hx
    obtain ⟨hy0, -⟩ := (mem_foreachL1 hnull).mp hy
    apply lt_of_l0
    rwa [hx0, hy0]

theorem radixForeach_pairwise (hnull : ∀ k, s.slot 0 k = 0) :
    (radixForeach s).Pairwise fun x y => x.1 < y.1 := by
  unfold radixForeach
  split_ifs
  · exact foreachL0_pairwise hnull _
  · exact foreachL1_pairwise hnull 0 _
  · exact foreachL2_pairwise 0 0 _
  · exact foreachL3_pairwise 0 0 0 _
  · exact List.Pairwise.nil

end

/-! ## `radix_cleanup` keeps the values -/

instance : DecidableEq Place := fun P Q =>
  decidable_of_iff (P.level = Q.level ∧ P.path = Q.path)
    ⟨fun h => Place.ext h.1 h.2, fun h => ⟨congrArg Place.level h, congrArg Place.path h⟩⟩

/-- The level of the nodes at a place. -/
def Place.rank (P : Place) : Nat := P.path.length + P.level.val

theorem Place.rank_root (r : Fin 4) : (Place.root r).rank = r.val := by
  simp [Place.rank, Place.root]

theorem Place.rank_snoc (P : Place) (k : Fin radixSlots) (hP : ¬ P.IsLeaf) (hk : k ≠ 0) :
    (P.snoc k hP hk).rank = P.rank + 1 := by
  simp [Place.rank, Place.snoc]
  omega

theorem Place.rank_lt (P : Place) (hP : ¬ P.IsLeaf) : P.rank < 3 := by
  have hdepth := P.depth
  simp only [Place.IsLeaf] at hP
  simp only [Place.rank]
  omega

theorem Place.not_isLeaf {P : Place} (hrank : P.rank < 3) : ¬ P.IsLeaf := by
  intro hleaf
  simp only [Place.IsLeaf] at hleaf
  simp only [Place.rank] at hrank
  omega

/-- Where the pointer to the node at a place is stored: in its root when nothing is
above that, else in the slot of the node above. -/
inductive Hangs (s : State) : PNode → Place → Prop where
  | top (r : Fin 4) : (∀ q < r, s.root q = 0) → Hangs s (.root r) (Place.root r)
  | under (r q : Fin 4) : q.val = r.val + 1 → s.root r ≠ 0 →
      Hangs s (.slot (s.root r) 0) (Place.root q)
  | child (Q : Place) (k : Fin radixSlots) (hQ : ¬ Q.IsLeaf) (hk : k ≠ 0) : s.addr Q ≠ 0 →
      Hangs s (.slot (s.addr Q) k) (Q.snoc k hQ hk)

/-- The subtree at `P` has been cleaned: nothing but its nodes is changed, and no
value. -/
structure Cleaned (s : State) (P : Place) (s' : State) : Prop where
  sep : Separated s'
  linked : Linked s'
  same : SameLeaves s s'
  addr : ∀ Q, Q.rank ≤ P.rank → Q ≠ P → s'.addr Q = s.addr Q
  here : s'.addr P = s.addr P ∨ s'.addr P = 0

section
variable {s s' : State} {P : Place} {pnode : PNode} {level index : Nat}

theorem Hangs.load_eq (h : Hangs s pnode P) (hl : Linked s) : s.load pnode = s.addr P := by
  cases h with
  | top r _ => rfl
  | under r q hq hr => exact hl.link r q hq hr
  | child Q k hQ hk _ => exact (addr_snoc s Q k hQ hk).symm

theorem Cleaned.refl (h : Separated s) (hl : Linked s) : Cleaned s P s :=
  ⟨h, hl, fun _ _ _ => rfl, fun _ _ _ => rfl, .inl rfl⟩

/-- The node at `P` is taken out of the tree. -/
theorem detach (h : Separated s) (hl : Linked s) (hne : s.addr P ≠ 0)
    (hempty : ∀ k, s.slot (s.addr P) k = 0) (hnull : ∀ k, s'.slot 0 k = 0)
    (hlive : s'.live = s.live.erase (s.addr P))
    (hroot : ∀ r, s'.root r = if Place.root r = P then 0 else s.root r)
    (hslot : ∀ Q k hQ hk, s'.slot (s.addr Q) k =
      if Q.snoc k hQ hk = P then 0 else s.slot (s.addr Q) k)
    (hzero : ∀ r q : Fin 4, q.val = r.val + 1 → s.root r ≠ 0 → Place.root r ≠ P →
      s'.slot (s.root r) 0 = if Place.root q = P then 0 else s.slot (s.root r) 0)
    (hrest : ∀ Q k, Q.IsLeaf ∨ (k = 0 ∧ Q.path ≠ []) →
      s'.slot (s.addr Q) k = s.slot (s.addr Q) k) :
    Cleaned s P s' ∧ ∀ Q, Q ≠ P → s'.addr Q = s.addr Q := by
  have haddr : ∀ Q, s'.addr Q = if Q = P then 0 else s.addr Q := by
    intro Q
    induction Q using Place.induct with
    | hroot r => rw [addr_root, addr_root, hroot]
    | hsnoc Q k hQ hk ih =>
      rw [addr_snoc, addr_snoc, ih]
      by_cases hQP : Q = P
      · subst hQP
        have hne' : Q.snoc k hQ hk ≠ Q := by
          intro e
          have hrank := congrArg Place.rank e
          rw [Place.rank_snoc] at hrank
          omega
        rw [if_pos rfl, hnull, if_neg hne', hempty]
      · rw [if_neg hQP, hslot Q k hQ hk]
  have hother : ∀ Q, Q ≠ P → s'.addr Q = s.addr Q := fun Q hQ => by rw [haddr, if_neg hQ]
  have hhere : s'.addr P = 0 := by rw [haddr, if_pos rfl]
  refine ⟨⟨⟨hnull, ?_, ?_, ?_⟩, ⟨?_, ?_⟩, ?_, fun Q _ hQ => hother Q hQ, .inr hhere⟩, hother⟩
  · intro Q hQ
    by_cases hQP : Q = P
    · rw [hQP, hhere] at hQ
      exact absurd rfl hQ
    · rw [hother Q hQP] at hQ ⊢
      rw [hlive, Finset.mem_erase]
      exact ⟨fun e => hQP (h.inj Q P hQ e), h.live Q hQ⟩
  · intro Q R hQ hQR
    by_cases hQP : Q = P
    · rw [hQP, hhere] at hQ
      exact absurd rfl hQ
    · by_cases hRP : R = P
      · rw [hRP, hhere] at hQR
        exact absurd hQR hQ
      · rw [hother Q hQP] at hQ
        rw [hother Q hQP, hother R hRP] at hQR
        exact h.inj Q R hQ hQR
  · intro Q hpath hleaf
    by_cases hQP : Q = P
    · rw [hQP, hhere, hnull]
    · rw [hother Q hQP, hrest Q 0 (.inr ⟨rfl, hpath⟩)]
      exact h.zero Q hpath hleaf
  · intro r q hq hr
    have hrP : Place.root r ≠ P := by
      intro e
      rw [hroot, if_pos e] at hr
      exact hr rfl
    rw [hroot, if_neg hrP] at hr ⊢
    rw [hzero r q hq hr hrP, hroot]
    split
    · rfl
    · exact hl.link r q hq hr
  · intro r q p hrq hqp hr hq
    have hr' : s.root r ≠ 0 := by
      intro e
      rw [hroot, e, ite_self] at hr
      exact hr rfl
    have hp : s.root p = 0 := by
      by_cases hqP : Place.root q = P
      · -- the root just freed had nothing in its slot 0
        subst hqP
        have hnext : q.val + 1 < 4 := by
          have := p.isLt
          rw [Fin.lt_def] at hqp
          omega
        have hlink := hl.link q ⟨q.val + 1, hnext⟩ rfl hne
        have hzero' := hempty 0
        rw [addr_root] at hzero'
        rw [hzero'] at hlink
        by_cases hpq : p.val = q.val + 1
        · have hp : p = ⟨q.val + 1, hnext⟩ := Fin.ext hpq
          rw [hp]
          exact hlink.symm
        · apply hl.gapless q ⟨q.val + 1, hnext⟩ p (by rw [Fin.lt_def]; exact Nat.lt_succ_self _)
            _ hne hlink.symm
          rw [Fin.lt_def] at hqp ⊢
          simp only
          omega
      · rw [hroot, if_neg hqP] at hq
        exact hl.gapless r q p hrq hqp hr' hq
    rw [hroot, hp, ite_self]
  · intro Q hQ j
    by_cases hQP : Q = P
    · rw [hQP, hhere, hnull, hempty]
    · rw [hother Q hQP, hrest Q j (.inl hQ)]

theorem Place.root_inj {r q : Fin 4} (h : Place.root r = Place.root q) : r = q :=
  congrArg Place.level h

/-- `free (node); *pnode = NULL` and the update of the roots. -/
theorem freeNode_spec (h : Separated s) (hl : Linked s) (hpnode : Hangs s pnode P)
    (hne : s.addr P ≠ 0) (hempty : ∀ k, s.slot (s.addr P) k = 0)
    (hindex : index = 0 ↔ P.path = []) :
    Cleaned s P (freeNode s pnode P.rank index) ∧
      ∀ Q, Q ≠ P → (freeNode s pnode P.rank index).addr Q = s.addr Q := by
  have hload := hpnode.load_eq hl
  cases hpnode with
  | top r habove =>
    have heq : freeNode s (.root r) (Place.root r).rank index =
        { s with live := s.live.erase (s.root r) }.setRoot r 0 := by
      rw [Place.rank_root, hindex.mpr rfl]
      fin_cases r <;> rfl
    rw [heq]
    apply detach h hl hne hempty
    · intro k
      rw [slot_setRoot]
      exact h.null k
    · rw [live_setRoot]
      rfl
    · intro q
      rw [root_setRoot]
      by_cases hqr : q = r
      · rw [if_pos hqr, if_pos (congrArg Place.root hqr)]
      · rw [if_neg hqr, if_neg fun e => hqr (Place.root_inj e)]
        fin_cases q <;> rfl
    · intro Q k hQ hk
      rw [slot_setRoot, if_neg (Place.snoc_ne_root r)]
      rfl
    · intro q p hp hq _
      rw [slot_setRoot]
      have hpr : Place.root p ≠ Place.root r := by
        intro e
        have hpr := Place.root_inj e
        exact hq (habove q (by rw [Fin.lt_def, ← hpr]; omega))
      rw [if_neg hpr]
      rfl
    · intro Q k _
      rw [slot_setRoot]
      rfl
  | under r q hq hr =>
    have hlink : s.slot (s.root r) 0 = s.root q := hl.link r q hq hr
    have heq : freeNode s (.slot (s.root r) 0) (Place.root q).rank index =
        ({ s with live := s.live.erase (s.root q) }.setSlot (s.root r) 0 0).setRoot q 0 := by
      unfold freeNode
      rw [Place.rank_root, hindex.mpr rfl, if_pos rfl, State.load, hlink]
      fin_cases q
      · exact absurd hq (by simp)
      · rfl
      · rfl
      · rfl
    rw [heq]
    have hroots : ∀ (Q : Place), s.addr Q = s.root r → Q = Place.root r :=
      fun Q e => (h.inj (Place.root r) Q hr e.symm).symm
    have hstep : ∀ m k, ¬ (m = s.root r ∧ k = 0) →
        (({ s with live := s.live.erase (s.root q) }.setSlot (s.root r) 0 0).setRoot q 0).slot m k =
          s.slot m k := by
      intro m k hmk
      rw [slot_setRoot, slot_setSlot, if_neg hmk]
      rfl
    apply detach h hl hne hempty
    · intro k
      rw [hstep 0 k fun e => hr e.1.symm]
      exact h.null k
    · rw [live_setRoot]
      rfl
    · intro p
      rw [root_setRoot, root_setSlot]
      by_cases hpq : p = q
      · rw [if_pos hpq, if_pos (congrArg Place.root hpq)]
      · rw [if_neg hpq, if_neg fun e => hpq (Place.root_inj e)]
        fin_cases p <;> rfl
    · intro Q k hQ hk
      rw [hstep _ k fun e => hk e.2, if_neg (Place.snoc_ne_root q)]
    · intro p t ht hp _
      by_cases hpr : p = r
      · have htq : t = q := Fin.ext (by rw [ht, hq, hpr])
        rw [htq, if_pos rfl, hpr, slot_setRoot, slot_setSlot, if_pos ⟨rfl, rfl⟩]
      · have htq : t ≠ q := by
          rintro rfl
          exact hpr (Fin.ext (by omega))
        rw [if_neg fun e => htq (Place.root_inj e), hstep]
        exact fun e => hpr (Place.root_inj (hroots (Place.root p) e.1))
    · intro Q k hQk
      apply hstep
      rintro ⟨hQ, rfl⟩
      have hQr := hroots Q hQ
      rcases hQk with hleaf | ⟨-, hpath⟩
      · rw [hQr] at hleaf
        have hr3 : r.val = 3 := by simpa [Place.IsLeaf, Place.root] using hleaf
        have := q.isLt
        omega
      · rw [hQr] at hpath
        exact hpath rfl
  | child Q k hQ hk hparent =>
    have hi : index ≠ 0 := by
      intro e
      have hpath := hindex.mp e
      simp [Place.snoc] at hpath
    have heq : freeNode s (.slot (s.addr Q) k) (Q.snoc k hQ hk).rank index =
        { s with live := s.live.erase (s.addr (Q.snoc k hQ hk)) }.setSlot (s.addr Q) k 0 := by
      unfold freeNode
      rw [hload, if_neg hi]
      rfl
    rw [heq]
    have hstep : ∀ R j, ¬ (R = Q ∧ j = k) →
        ({ s with live := s.live.erase (s.addr (Q.snoc k hQ hk)) }.setSlot (s.addr Q) k 0).slot
          (s.addr R) j = s.slot (s.addr R) j := by
      intro R j hRj
      rw [slot_setSlot, if_neg]
      · rfl
      · exact fun e => hRj ⟨(h.inj Q R hparent e.1.symm).symm, e.2⟩
    apply detach h hl hne hempty
    · intro j
      rw [slot_setSlot, if_neg fun e => hparent e.1.symm]
      exact h.null j
    · rfl
    · intro r
      rw [root_setSlot, if_neg fun e => Place.snoc_ne_root r e.symm]
      fin_cases r <;> rfl
    · intro R j hR hj
      by_cases hRj : R = Q ∧ j = k
      · obtain ⟨rfl, rfl⟩ := hRj
        rw [slot_setSlot, if_pos ⟨rfl, rfl⟩, if_pos rfl]
      · rw [hstep R j hRj, if_neg fun e => hRj (Place.snoc_inj.mp e)]
    · intro r q _ _ _
      rw [if_neg fun e => Place.snoc_ne_root q e.symm]
      exact hstep (Place.root r) 0 fun e => hk e.2.symm
    · intro R j hRj
      apply hstep
      rintro ⟨rfl, rfl⟩
      rcases hRj with hleaf | ⟨hj, -⟩
      · exact hQ hleaf
      · exact hk hj

/-- Slot 0 of a node that is not a leaf is occupied at a root only, by the root of the
next level. -/
theorem Separated.root_of_slot_zero (h : Separated s) (hP : ¬ P.IsLeaf)
    (hk : s.slot (s.addr P) 0 ≠ 0) :
    P.path = [] ∧ P = Place.root P.level ∧ P.level.val + 1 < 4 := by
  have hpath : P.path = [] := by
    by_contra hpath
    exact hk (h.zero P hpath hP)
  have hroot : P = Place.root P.level := Place.ext rfl hpath
  have hrank := P.rank_lt hP
  rw [hroot, Place.rank_root] at hrank
  exact ⟨hpath, hroot, by omega⟩

/-- The node of an occupied slot of a node. -/
theorem child_place (h : Separated s) (hl : Linked s) (hP : ¬ P.IsLeaf) (hne : s.addr P ≠ 0)
    (hindex : index = 0 ↔ P.path = []) {k : Fin radixSlots} (hk : s.slot (s.addr P) k ≠ 0) :
    ∃ c : Place, c.rank = P.rank + 1 ∧ s.addr c = s.slot (s.addr P) k ∧
      Hangs s (.slot (s.addr P) k) c ∧ (index <<< 8 ||| k.val = 0 ↔ c.path = []) := by
  have hor : index <<< 8 ||| k.val = 0 ↔ index = 0 ∧ k = 0 := by
    rw [Nat.or_eq_zero_iff, Nat.shiftLeft_eq, Fin.ext_iff]
    simp
  by_cases hk0 : k = 0
  · subst hk0
    obtain ⟨hpath, hroot, hlt⟩ := h.root_of_slot_zero hP hk
    rw [hroot, addr_root] at hk hne ⊢
    refine ⟨Place.root ⟨P.level.val + 1, hlt⟩, ?_, ?_, .under _ _ rfl hne, ?_⟩
    · rw [Place.rank_root, Place.rank_root]
    · rw [addr_root]
      exact (hl.link _ _ rfl hne).symm
    · rw [hor, hindex]
      exact ⟨fun _ => rfl, fun _ => ⟨hpath, rfl⟩⟩
  · refine ⟨P.snoc k hP hk0, Place.rank_snoc P k hP hk0, addr_snoc s P k hP hk0,
      .child P k hP hk0 hne, ?_⟩
    rw [hor]
    constructor
    · exact fun e => absurd e.2 hk0
    · exact fun e => absurd e (by simp [Place.snoc])

/-- Cleaning below a node leaves its empty slots empty. -/
theorem Cleaned.slot_eq_zero {c : Place} (hc : Cleaned s c s') (hl : Linked s)
    (hP : ¬ P.IsLeaf) (hne : s.addr P ≠ 0) (hrank : c.rank = P.rank + 1) {j : Fin radixSlots}
    (hj : s.slot (s.addr P) j = 0) : s'.slot (s.addr P) j = 0 := by
  have hself : s'.addr P = s.addr P :=
    hc.addr P (by omega) (by rintro rfl; omega)
  have hzero : ∀ Q : Place, Q.rank = c.rank → s.addr Q = 0 → s'.addr Q = 0 := by
    intro Q hQ hQ0
    by_cases hQc : Q = c
    · rw [hQc] at hQ0 ⊢
      rcases hc.here with heq | heq
      · rw [heq, hQ0]
      · exact heq
    · rw [hc.addr Q hQ.le hQc, hQ0]
  by_cases hj0 : j = 0
  · subst hj0
    by_cases hpath : P.path = []
    · have hroot : P = Place.root P.level := Place.ext rfl hpath
      have hlt : P.level.val + 1 < 4 := by
        have hlt := P.rank_lt hP
        rw [hroot, Place.rank_root] at hlt
        omega
      rw [hroot, addr_root] at hj hne hself ⊢
      rw [hroot, Place.rank_root] at hrank
      have hq := hzero (Place.root ⟨P.level.val + 1, hlt⟩)
        (by rw [Place.rank_root, hrank])
        (by rw [addr_root, ← hl.link _ _ rfl hne, hj])
      rw [addr_root] at hq hself
      rw [← hself] at hne ⊢
      rw [hc.linked.link P.level ⟨P.level.val + 1, hlt⟩ rfl hne, hq]
    · rw [← hself]
      exact hc.sep.zero P hpath hP
  · rw [← hself, ← addr_snoc s' P j hP hj0]
    apply hzero
    · rw [Place.rank_snoc, hrank]
    · rw [addr_snoc, hj]

/-- Some slots of the node at `P` have been cleaned. -/
structure Swept (s : State) (P : Place) (s' : State) : Prop where
  sep : Separated s'
  linked : Linked s'
  same : SameLeaves s s'
  addr : ∀ Q, Q.rank ≤ P.rank → s'.addr Q = s.addr Q
  zero : ∀ k, s.slot (s.addr P) k = 0 → s'.slot (s.addr P) k = 0

theorem Hangs.swept (h : Hangs s pnode P) (hs : Swept s P s') : Hangs s' pnode P := by
  have hroot : ∀ q : Fin 4, q.val ≤ P.rank → s'.root q = s.root q :=
    fun q hq => hs.addr (Place.root q) (by rwa [Place.rank_root])
  cases h with
  | top r habove =>
    rw [Place.rank_root] at hroot
    refine .top r fun q hq => ?_
    rw [hroot q (Fin.le_def.mp hq.le), habove q hq]
  | under r q hq hr =>
    rw [Place.rank_root] at hroot
    have hrr := hroot r (by omega)
    rw [← hrr] at hr ⊢
    exact .under r q hq hr
  | child Q k hQ hk hne =>
    have hQQ := hs.addr Q (by rw [Place.rank_snoc]; omega)
    rw [← hQQ] at hne ⊢
    exact .child Q k hQ hk hne

/-- One turn of the loop of `cleanup_node`: an empty slot is passed over, an occupied one
is the pointer to the place below. -/
theorem cleanupSlot_cases (self : State → PNode → Nat → State) (h : Separated s)
    (hl : Linked s) (hP : ¬ P.IsLeaf) (hindex : index = 0 ↔ P.path = []) (hne : s.addr P ≠ 0)
    (empty : Bool) (k : Fin radixSlots) :
    (s.slot (s.addr P) k = 0 ∧ cleanupSlot self (s.addr P) index (s, empty) k = (s, empty)) ∨
      ∃ c s₁, c.rank = P.rank + 1 ∧ s.addr c = s.slot (s.addr P) k ∧ s.addr c ≠ 0 ∧
        Hangs s (.slot (s.addr P) k) c ∧ (index <<< 8 ||| k.val = 0 ↔ c.path = []) ∧
        s₁ = self s (.slot (s.addr P) k) (index <<< 8 ||| k.val) ∧
        cleanupSlot self (s.addr P) index (s, empty) k =
          (s₁, empty && decide (s₁.slot (s.addr P) k = 0)) := by
  by_cases hk : s.slot (s.addr P) k = 0
  · refine .inl ⟨hk, ?_⟩
    simp only [cleanupSlot, hk, if_true]
  · obtain ⟨c, hrank, haddr, hhangs, hci⟩ := child_place h hl hP hne hindex hk
    refine .inr ⟨c, _, hrank, haddr, haddr ▸ hk, hhangs, hci, rfl, ?_⟩
    simp only [cleanupSlot, hk, if_false]

/-- The loop of `cleanup_node`: the slots are cleaned, and `empty` tells whether
nothing is left. -/
theorem sweep_spec (self : State → PNode → Nat → State)
    (hself : ∀ s pnode c index, c.rank = P.rank + 1 → Separated s → Linked s → s.addr c ≠ 0 →
      Hangs s pnode c → (index = 0 ↔ c.path = []) → Cleaned s c (self s pnode index))
    (hP : ¬ P.IsLeaf) (hindex : index = 0 ↔ P.path = []) {n : Ptr} (hn : n ≠ 0) :
    ∀ (ks : List (Fin radixSlots)) (s : State) (empty : Bool), Separated s → Linked s →
      s.addr P = n → ∃ s' empty', ks.foldl (cleanupSlot self n index) (s, empty) = (s', empty') ∧
        Swept s P s' ∧ (empty' = true → empty = true ∧ ∀ k ∈ ks, s'.slot n k = 0) := by
  intro ks
  induction ks with
  | nil =>
    intro s empty h hl hPn
    refine ⟨s, empty, rfl, ⟨h, hl, fun _ _ _ => rfl, fun _ _ => rfl, fun _ hk => hk⟩, ?_⟩
    exact fun he => ⟨he, fun k hk => absurd hk List.not_mem_nil⟩
  | cons k ks ih =>
    intro s empty h hl hPn
    rw [List.foldl_cons]
    subst hPn
    rcases cleanupSlot_cases self h hl hP hindex hn empty k with
      ⟨hk, hstep⟩ | ⟨c, s₁, hrank, haddr, hc0, hhangs, hci, hs₁, hstep⟩
    · rw [hstep]
      obtain ⟨s', empty', heq, hs, hempty⟩ := ih s empty h hl rfl
      refine ⟨s', empty', heq, hs, fun he => ⟨(hempty he).1, ?_⟩⟩
      intro j hj
      cases hj with
      | head => exact hs.zero k hk
      | tail _ hj => exact (hempty he).2 j hj
    · have hc := hself s _ c (index <<< 8 ||| k.val) hrank h hl hc0 hhangs hci
      rw [← hs₁] at hc
      rw [hstep]
      have haddr₁ : ∀ Q : Place, Q.rank ≤ P.rank → s₁.addr Q = s.addr Q := by
        intro Q hQ
        exact hc.addr Q (by omega) (by rintro rfl; omega)
      have hP₁ : s₁.addr P = s.addr P := haddr₁ P (Nat.le_refl _)
      obtain ⟨s', empty', heq, hs, hempty⟩ :=
        ih s₁ (empty && decide (s₁.slot (s.addr P) k = 0)) hc.sep hc.linked hP₁
      refine ⟨s', empty', heq, ⟨hs.sep, hs.linked, hc.same.trans hs.same, ?_, ?_⟩, ?_⟩
      · intro Q hQ
        rw [hs.addr Q hQ, haddr₁ Q hQ]
      · intro j hj
        have hj₁ := hc.slot_eq_zero hl hP hn hrank hj
        exact hP₁ ▸ hs.zero j (hP₁.symm ▸ hj₁)
      · intro he
        obtain ⟨he₁, hks⟩ := hempty he
        rw [Bool.and_eq_true, decide_eq_true_eq] at he₁
        refine ⟨he₁.1, ?_⟩
        intro j hj
        cases hj with
        | head => exact hP₁ ▸ hs.zero k (hP₁.symm ▸ he₁.2)
        | tail _ hj => exact hks j hj

/-- `cleanup_node` changes nothing outside its subtree, and no value. -/
theorem cleanupNode_spec : ∀ (levels : Nat) (s : State) (pnode : PNode) (P : Place)
    (index : Nat), P.rank + levels = 3 → Separated s → Linked s → s.addr P ≠ 0 →
    Hangs s pnode P → (index = 0 ↔ P.path = []) →
    Cleaned s P (cleanupNode levels s pnode index) := by
  intro levels
  induction levels with
  | zero =>
    intro s pnode P index hrank h hl hne hhangs hindex
    unfold cleanupNode
    rw [hhangs.load_eq hl]
    by_cases hempty : ∀ i, s.slot (s.addr P) i = 0
    · rw [if_pos hempty, ← show P.rank = 3 from hrank]
      exact (freeNode_spec h hl hhangs hne hempty hindex).1
    · rw [if_neg hempty]
      exact Cleaned.refl h hl
  | succ levels ih =>
    intro s pnode P index hrank h hl hne hhangs hindex
    have hP : ¬ P.IsLeaf := Place.not_isLeaf (by omega)
    unfold cleanupNode
    rw [hhangs.load_eq hl]
    obtain ⟨s', empty, heq, hs, hempty⟩ := sweep_spec (cleanupNode levels)
      (fun s pnode c index hc => ih s pnode c index (by omega)) hP hindex hne
      (List.finRange radixSlots) s true h hl rfl
    rw [cleanupSlots, heq]
    have haddr : s'.addr P = s.addr P := hs.addr P (Nat.le_refl _)
    cases empty with
    | false =>
      exact ⟨hs.sep, hs.linked, hs.same, fun Q hQ _ => hs.addr Q hQ, .inl haddr⟩
    | true =>
      have hall := (hempty rfl).2
      have hfree := (freeNode_spec hs.sep hs.linked (hhangs.swept hs) (by rwa [haddr])
        (fun k => by rw [haddr]; exact hall k (List.mem_finRange k)) hindex).1
      rw [show P.rank = 2 - levels by omega] at hfree
      have hend : cleanupEnd pnode (2 - levels) index (s', true) =
          freeNode s' pnode (2 - levels) index := rfl
      rw [hend]
      refine ⟨hfree.sep, hfree.linked, hs.same.trans hfree.same, ?_, ?_⟩
      · intro Q hQ hQP
        rw [hfree.addr Q hQ hQP, hs.addr Q hQ]
      · rw [← haddr]
        exact hfree.here

/-- The step lemma of `radix_cleanup`. -/
theorem radixCleanup_spec (h : Separated s) (hl : Linked s) :
    Separated (radixCleanup s) ∧ Linked (radixCleanup s) ∧ SameLeaves s (radixCleanup s) := by
  have hclean : ∀ (r : Fin 4), s.root r ≠ 0 → (∀ q < r, s.root q = 0) →
      Cleaned s (Place.root r) (cleanupNode (3 - r.val) s (.root r) 0) := by
    intro r hr habove
    apply cleanupNode_spec _ s (.root r) (Place.root r) 0 _ h hl hr (.top r habove)
    · exact ⟨fun _ => rfl, fun _ => rfl⟩
    · rw [Place.rank_root]
      omega
  unfold radixCleanup
  split_ifs with h0 h1 h2 h3
  · have hc := hclean 0 h0 fun q hq => absurd hq (Fin.not_lt_zero q)
    exact ⟨hc.sep, hc.linked, hc.same⟩
  · have hc := hclean 1 h1 fun q hq => by
      rw [roots_above_one q hq]
      exact not_not.mp h0
    exact ⟨hc.sep, hc.linked, hc.same⟩
  · have hc := hclean 2 h2 fun q hq => by
      rcases roots_above_two q hq with rfl | rfl
      · exact not_not.mp h0
      · exact not_not.mp h1
    exact ⟨hc.sep, hc.linked, hc.same⟩
  · have hc := hclean 3 h3 fun q hq => by
      rcases roots_above_three q hq with rfl | rfl | rfl
      · exact not_not.mp h0
      · exact not_not.mp h1
      · exact not_not.mp h2
    exact ⟨hc.sep, hc.linked, hc.same⟩
  · exact ⟨h, hl, fun _ _ _ => rfl⟩

end

/-! ## Runs -/

/-- The trees obtained from `radix_create` by `radix_set` and `radix_cleanup` calls
whose `radix_set`s are orderly. -/
inductive RadixRun (C : Calloc) : State → Prop where
  | create : RadixRun C radixCreate
  | set {s : State} {i : UInt32} (v : Ptr) : RadixRun C s → Orderly s i →
      RadixRun C (radixSet C s i v).2
  | cleanup {s : State} : RadixRun C s → RadixRun C (radixCleanup s)

/-- `radix_foreach` calls `fn` once for each index that holds a value, with that
value, in ascending order. -/
structure Complete (s : State) : Prop where
  ordered : (radixForeach s).Pairwise fun x y => x.1 < y.1
  calls : ∀ i v, (i, v) ∈ radixForeach s ↔ v ≠ 0 ∧ radixGet s i = v

theorem RadixRun.inv {C : Calloc} {s : State} (hC : C.Succeeds) (h : RadixRun C s) :
    Separated s ∧ Linked s := by
  induction h with
  | create => exact ⟨separated_create, linked_create⟩
  | set v _ ho ih =>
    obtain ⟨hsep, hl⟩ := ih
    exact ⟨(radixSet_spec hC hsep ho.1 v).2.1, radixSet_linked hC hsep hl ho v⟩
  | cleanup _ ih =>
    obtain ⟨hsep, hl⟩ := ih
    obtain ⟨hsep', hl', -⟩ := radixCleanup_spec hsep hl
    exact ⟨hsep', hl'⟩

/-- In every orderly run the traversal is complete and ordered. -/
theorem radixRun_complete {C : Calloc} {s : State} (hC : C.Succeeds) (h : RadixRun C s) :
    Complete s := by
  obtain ⟨hsep, hl⟩ := h.inv hC
  exact ⟨radixForeach_pairwise hsep.null, mem_radixForeach hsep hl⟩

/-- The traversal of a small tree, after a cleanup. -/
theorem radixRun_complete_smallTree :
    Complete (radixCleanup
      (radixSet Calloc.bump (radixSet Calloc.bump radixCreate 5 1).2 0x2000 2).2) := by
  have hrun : RadixRun Calloc.bump (radixCleanup
      (radixSet Calloc.bump (radixSet Calloc.bump radixCreate 5 1).2 0x2000 2).2) :=
    ((RadixRun.create.set 1 (by decide)).set 2 (by decide)).cleanup
  exact radixRun_complete Calloc.bump_succeeds hrun

/-- `radix_set(rx, 0x100, 1)` and then `radix_set(rx, 0, 1)`: the leaf of the index 0
hangs on `root_l3` only, and the traversal does not meet it. -/
theorem radix_foreach_misses_zero :
    radixGet (runSets Calloc.bump radixCreate [(0x100, 1), (0, 1)]) 0 = 1 ∧
      (0, 1) ∉ radixForeach (runSets Calloc.bump radixCreate [(0x100, 1), (0, 1)]) := by
  decide +kernel

end Ko6.Common.Radix
