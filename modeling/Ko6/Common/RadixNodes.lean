import Ko6.Common.RadixArray

set_option autoImplicit false

/-!
# Common: the nodes under the roots of the radix tree

The module describes `radix_set` for every index and every state of the heap, so
without the hypothesis that the tree is an array.  A node is reached at a level, from
one of the four roots; `radix_set` works on the tree by four steps (a new root, a new
node in an empty slot, a shortcut root moved to a node that is reached, a value in a
leaf), and each step has one lemma that says which nodes are reached after it.
-/

namespace Ko6.Common.Radix

/-- `n` is a node of level `r` that can be reached from `root_l0`..`root_l3`. -/
inductive Reaches (s : State) : Nat → Ptr → Prop where
  | root (r : Fin 4) : s.root r ≠ 0 → Reaches s r.val (s.root r)
  | slot {r : Nat} {n : Ptr} (k : Fin radixSlots) : Reaches s r n → r < 3 → s.slot n k ≠ 0 →
      Reaches s (r + 1) (s.slot n k)

/-- What holds of every tree: the nodes that are reached are allocated, each at one
level. -/
structure Shape (s : State) : Prop where
  null : ∀ k, s.slot 0 k = 0
  live : ∀ r n, Reaches s r n → n ∈ s.live
  level : ∀ r q n, Reaches s r n → Reaches s q n → r = q

/-- An allocated node without contents that is not in the tree. -/
structure Loose (s : State) (a : Ptr) : Prop where
  ne : a ≠ 0
  live : a ∈ s.live
  empty : ∀ k, s.slot a k = 0
  unreached : ∀ r, ¬ Reaches s r a

section
variable {s s' : State} {r q : Nat} {n m a b : Ptr} {k : Fin radixSlots}

theorem Reaches.ne (h : Reaches s r n) : n ≠ 0 := by
  cases h with
  | root r hr => exact hr
  | slot k _ _ hk => exact hk

theorem Reaches.le (h : Reaches s r n) : r ≤ 3 := by
  cases h with
  | root r _ => exact Nat.le_of_lt_succ r.isLt
  | slot k _ hr _ => exact hr

/-- Above a node of the tree there is a root. -/
theorem Reaches.exists_root (h : Reaches s r n) : ∃ t : Fin 4, t.val ≤ r ∧ s.root t ≠ 0 := by
  induction h with
  | root r hr => exact ⟨r, Nat.le_refl _, hr⟩
  | slot k _ _ _ ih =>
    obtain ⟨t, ht, htr⟩ := ih
    exact ⟨t, Nat.le_succ_of_le ht, htr⟩

/-- Nothing is gained when the roots and the slots of the nodes reached are the same. -/
theorem Reaches.of_same (hroot : ∀ t, s'.root t = s.root t)
    (hslot : ∀ q m k, Reaches s q m → q < 3 → s'.slot m k = s.slot m k)
    (h : Reaches s' r n) : Reaches s r n := by
  induction h with
  | root t ht =>
    rw [hroot] at ht ⊢
    exact .root t ht
  | slot k _ hr hk ih =>
    rw [hslot _ _ k ih hr] at hk ⊢
    exact .slot k ih hr hk

/-- Nothing is lost when the roots and the occupied slots of the nodes reached are kept. -/
theorem Reaches.mono (hroot : ∀ t, s.root t ≠ 0 → s'.root t = s.root t)
    (hslot : ∀ q m k, Reaches s q m → q < 3 → s.slot m k ≠ 0 → s'.slot m k = s.slot m k)
    (h : Reaches s r n) : Reaches s' r n := by
  induction h with
  | root t ht =>
    have heq := hroot t ht
    rw [← heq] at ht ⊢
    exact .root t ht
  | slot k hn hr hk ih =>
    have heq := hslot _ _ k hn hr hk
    rw [← heq] at hk ⊢
    exact .slot k ih hr hk

theorem shape_create : Shape radixCreate := by
  have hnone : ∀ r n, ¬ Reaches radixCreate r n := by
    intro r n h
    obtain ⟨t, -, ht⟩ := h.exists_root
    exact ht (by fin_cases t <;> rfl)
  exact ⟨fun _ => rfl, fun r n h => absurd h (hnone r n), fun r _ n h => absurd h (hnone r n)⟩

/-- A step after which no more nodes are reached. -/
theorem Shape.of_subset (h : Shape s) (hnull : ∀ k, s'.slot 0 k = 0) (hlive : s'.live = s.live)
    (hsub : ∀ r n, Reaches s' r n → Reaches s r n) : Shape s' where
  null := hnull
  live r n hn := hlive ▸ h.live r n (hsub r n hn)
  level r q n hr hq := h.level r q n (hsub r n hr) (hsub q n hq)

/-! ## The steps -/

/-- The state after a failed call of `calloc`. -/
def State.failed (s : State) : State := { s with calls := s.calls + 1 }

/-- `s'` is `s` after a call of `calloc` that gave `a`. -/
structure Fresh (s : State) (a : Ptr) (s' : State) : Prop where
  ne : a ≠ 0
  new : a ∉ s.live
  live : s'.live = insert a s.live
  calls : s'.calls = s.calls + 1
  root : ∀ t, s'.root t = s.root t
  slot : ∀ m k, s'.slot m k = if m = a then 0 else s.slot m k

/-- `calloc` fails, or gives a fresh block. -/
theorem newNode_cases (C : Calloc) (s : State) :
    (C.pick s.calls s.live = 0 ∧ newNode C s = (0, s.failed)) ∨
      ∃ a s', C.pick s.calls s.live = a ∧ newNode C s = (a, s') ∧ Fresh s a s' := by
  by_cases hpick : C.pick s.calls s.live = 0
  · refine .inl ⟨hpick, ?_⟩
    simp only [newNode, hpick, if_true]
    rfl
  · refine .inr ⟨C.pick s.calls s.live, (newNode C s).2, rfl, ?_, hpick, C.pick_fresh _ _ hpick,
      ?_, ?_, ?_, ?_⟩
    · simp only [newNode, hpick, if_false]
    · simp only [newNode, hpick, if_false]
    · simp only [newNode, hpick, if_false]
    · intro t
      simp only [newNode, hpick, if_false]
      fin_cases t <;> rfl
    · intro m k
      simp only [newNode, hpick, if_false, State.slot, Function.update_apply]
      split_ifs <;> rfl

theorem Fresh.reaches_iff (hf : Fresh s a s') (h : Shape s) :
    Reaches s' r n ↔ Reaches s r n := by
  have hsame : ∀ q m k, Reaches s q m → s'.slot m k = s.slot m k := by
    intro q m k hm
    rw [hf.slot, if_neg]
    rintro rfl
    exact hf.new (h.live q m hm)
  constructor
  · exact Reaches.of_same hf.root fun q m k hm _ => hsame q m k hm
  · exact Reaches.mono (fun t _ => hf.root t) fun q m k hm _ _ => hsame q m k hm

theorem Fresh.shape (hf : Fresh s a s') (h : Shape s) : Shape s' where
  null k := by rw [hf.slot, if_neg hf.ne.symm, h.null]
  live r n hn := by
    rw [hf.live]
    exact Finset.mem_insert_of_mem (h.live r n ((hf.reaches_iff h).mp hn))
  level r q n hr hq := h.level r q n ((hf.reaches_iff h).mp hr) ((hf.reaches_iff h).mp hq)

theorem Fresh.loose (hf : Fresh s a s') (h : Shape s) : Loose s' a where
  ne := hf.ne
  live := hf.live ▸ Finset.mem_insert_self _ _
  empty k := by rw [hf.slot, if_pos rfl]
  unreached r hr := hf.new (h.live r a ((hf.reaches_iff h).mp hr))

theorem Fresh.keep_loose (hf : Fresh s a s') (h : Shape s) (hb : Loose s b) :
    Loose s' b ∧ b ≠ a := by
  have hba : b ≠ a := by
    rintro rfl
    exact hf.new hb.live
  refine ⟨⟨hb.ne, ?_, ?_, ?_⟩, hba⟩
  · rw [hf.live]
    exact Finset.mem_insert_of_mem hb.live
  · intro k
    rw [hf.slot, if_neg hba, hb.empty]
  · exact fun r hr => hb.unreached r ((hf.reaches_iff h).mp hr)

/-- The node `a` of level `r` is reached after the step, and nothing else is lost or
gained. -/
def Gains (s : State) (r : Nat) (a : Ptr) (s' : State) : Prop :=
  ∀ q m, Reaches s' q m ↔ Reaches s q m ∨ (q = r ∧ m = a)

theorem Gains.shape (hg : Gains s r a s') (h : Shape s) (ha : Loose s a)
    (hnull : ∀ k, s'.slot 0 k = 0) (hlive : s'.live = s.live) : Shape s' := by
  refine ⟨hnull, ?_, ?_⟩
  · intro q m hm
    rw [hlive]
    rcases (hg q m).mp hm with hold | ⟨-, rfl⟩
    · exact h.live q m hold
    · exact ha.live
  · intro p q m hp hq
    rcases (hg p m).mp hp with hp | ⟨hpr, rfl⟩
    · rcases (hg q m).mp hq with hq | ⟨-, rfl⟩
      · exact h.level p q m hp hq
      · exact absurd hp (ha.unreached p)
    · rcases (hg q m).mp hq with hq | ⟨hqr, -⟩
      · exact absurd hq (ha.unreached q)
      · rw [hpr, hqr]

theorem Gains.keep_loose (hg : Gains s r a s') (hlive : s'.live = s.live) (hb : Loose s b)
    (hba : b ≠ a) (hslot : ∀ k, s'.slot b k = s.slot b k) : Loose s' b := by
  refine ⟨hb.ne, hlive ▸ hb.live, ?_, ?_⟩
  · intro k
    rw [hslot, hb.empty]
  · intro q hq
    rcases (hg q b).mp hq with hold | ⟨-, hba'⟩
    · exact hb.unreached q hold
    · exact hba hba'

/-- The root below `root_l<r>`; there is none below `root_l3`. -/
def State.next (s : State) : Fin 4 → Ptr
  | 0 => s.rootL1
  | 1 => s.rootL2
  | 2 => s.rootL3
  | 3 => 0

theorem next_eq_root {t u : Fin 4} (hu : u.val = t.val + 1) : s.next t = s.root u := by
  fin_cases t <;> fin_cases u <;> first | rfl | exact absurd hu (by decide)

theorem next_reaches {t : Fin 4} (ht : s.next t ≠ 0) : Reaches s (t.val + 1) (s.next t) := by
  fin_cases t
  · exact .root 1 ht
  · exact .root 2 ht
  · exact .root 3 ht
  · exact absurd rfl ht

/-- `a` becomes `root_l<t>`, with the root of the next level in its slot 0. -/
structure Planted (s : State) (t : Fin 4) (a : Ptr) (s' : State) : Prop where
  live : s'.live = s.live
  calls : s'.calls = s.calls
  root : ∀ u, s'.root u = if u = t then a else s.root u
  slot : ∀ m k, s'.slot m k = if m = a ∧ k = 0 then s.next t else s.slot m k

theorem Planted.gains {t : Fin 4} (hp : Planted s t a s') (ht : s.root t = 0)
    (ha : Loose s a) : Gains s t.val a s' := by
  have hsame : ∀ q m k, Reaches s q m → s'.slot m k = s.slot m k := by
    intro q m k hm
    rw [hp.slot, if_neg]
    rintro ⟨rfl, -⟩
    exact ha.unreached q hm
  intro q m
  constructor
  · intro hm
    induction hm with
    | root u hu =>
      rw [hp.root] at hu ⊢
      by_cases hut : u = t
      · subst hut
        rw [if_pos rfl]
        exact .inr ⟨rfl, rfl⟩
      · rw [if_neg hut] at hu ⊢
        exact .inl (.root u hu)
    | slot k _ hr hk ih =>
      rcases ih with hold | ⟨rfl, rfl⟩
      · rw [hsame _ _ k hold] at hk ⊢
        exact .inl (.slot k hold hr hk)
      · -- the new root holds the old one and nothing else
        rw [hp.slot] at hk ⊢
        by_cases hk0 : k = 0
        · rw [if_pos ⟨rfl, hk0⟩] at hk ⊢
          exact .inl (next_reaches hk)
        · rw [if_neg fun e => hk0 e.2] at hk
          exact absurd (ha.empty k) hk
  · rintro (hold | ⟨rfl, rfl⟩)
    · apply Reaches.mono _ (fun q m k hm _ _ => hsame q m k hm) hold
      intro u hu
      rw [hp.root, if_neg]
      rintro rfl
      exact hu ht
    · have hroot : s'.root t = m := by rw [hp.root, if_pos rfl]
      rw [← hroot]
      exact .root t (hroot ▸ ha.ne)

theorem Planted.shape {t : Fin 4} (hp : Planted s t a s') (h : Shape s) (ht : s.root t = 0)
    (ha : Loose s a) : Shape s' := by
  apply (hp.gains ht ha).shape h ha _ hp.live
  intro k
  rw [hp.slot, if_neg fun e => ha.ne e.1.symm, h.null]

theorem Planted.keep_loose {t : Fin 4} (hp : Planted s t a s') (ht : s.root t = 0)
    (ha : Loose s a) (hb : Loose s b) (hba : b ≠ a) : Loose s' b := by
  apply (hp.gains ht ha).keep_loose hp.live hb hba
  intro k
  rw [hp.slot, if_neg fun e => hba e.1]

/-- `a` is stored in slot `k` of the node `n`. -/
structure Hung (s : State) (n : Ptr) (k : Fin radixSlots) (a : Ptr) (s' : State) : Prop where
  live : s'.live = s.live
  calls : s'.calls = s.calls
  root : ∀ u, s'.root u = s.root u
  slot : ∀ m j, s'.slot m j = if m = n ∧ j = k then a else s.slot m j

theorem hung_setSlot (s : State) (n : Ptr) (k : Fin radixSlots) (a : Ptr) :
    Hung s n k a (s.setSlot n k a) where
  live := rfl
  calls := rfl
  root := root_setSlot s n k a
  slot m j := slot_setSlot s n m k j a

theorem Hung.gains (hh : Hung s n k a s') (h : Shape s) (hn : Reaches s r n) (hr : r < 3)
    (hk : s.slot n k = 0) (ha : Loose s a) : Gains s (r + 1) a s' := by
  intro q m
  constructor
  · intro hm
    induction hm with
    | root u hu =>
      rw [hh.root] at hu ⊢
      exact .inl (.root u hu)
    | @slot q m j _ hq hj ih =>
      rcases ih with hold | ⟨rfl, rfl⟩
      · rw [hh.slot] at hj ⊢
        by_cases hnk : m = n ∧ j = k
        · rw [if_pos hnk]
          rw [hnk.1] at hold
          exact .inr ⟨by rw [h.level q r n hold hn], rfl⟩
        · rw [if_neg hnk] at hj ⊢
          exact .inl (.slot j hold hq hj)
      · have hmn : m ≠ n := by
          rintro rfl
          exact ha.unreached r hn
        rw [hh.slot, if_neg fun e => hmn e.1] at hj
        exact absurd (ha.empty j) hj
  · rintro (hold | ⟨rfl, rfl⟩)
    · refine Reaches.mono (fun u _ => hh.root u) ?_ hold
      intro q m j _ _ hj
      rw [hh.slot, if_neg]
      rintro ⟨rfl, rfl⟩
      exact hj hk
    · have hn' : Reaches s' r n := by
        refine Reaches.mono (fun u _ => hh.root u) ?_ hn
        intro q m j _ _ hj
        rw [hh.slot, if_neg]
        rintro ⟨rfl, rfl⟩
        exact hj hk
      have hslot : s'.slot n k = m := by rw [hh.slot, if_pos ⟨rfl, rfl⟩]
      rw [← hslot]
      exact .slot k hn' hr (hslot ▸ ha.ne)

theorem Hung.shape (hh : Hung s n k a s') (h : Shape s) (hn : Reaches s r n) (hr : r < 3)
    (hk : s.slot n k = 0) (ha : Loose s a) : Shape s' := by
  apply (hh.gains h hn hr hk ha).shape h ha _ hh.live
  intro j
  rw [hh.slot, if_neg fun e => hn.ne e.1.symm, h.null]

/-- A shortcut root is moved to a node of its level: no more nodes are reached. -/
theorem reaches_setRoot_subset {t : Fin 4} (ha : Reaches s t.val a) (q : Nat) (m : Ptr)
    (hm : Reaches (s.setRoot t a) q m) : Reaches s q m := by
  induction hm with
  | root u hu =>
    rw [root_setRoot] at hu ⊢
    by_cases hut : u = t
    · subst hut
      rw [if_pos rfl]
      exact ha
    · rw [if_neg hut] at hu ⊢
      exact .root u hu
  | slot k _ hr hk ih =>
    rw [slot_setRoot] at hk ⊢
    exact .slot k ih hr hk

theorem Shape.setRoot {t : Fin 4} (h : Shape s) (ha : Reaches s t.val a) :
    Shape (s.setRoot t a) :=
  h.of_subset (fun k => by rw [slot_setRoot, h.null]) (live_setRoot s t a)
    (reaches_setRoot_subset ha)

/-- A value is stored in a leaf: the same nodes are reached. -/
theorem reaches_setLeaf_iff (h : Shape s) (hn : Reaches s 3 n) (v : Ptr) :
    Reaches (s.setSlot n k v) q m ↔ Reaches s q m := by
  have hsame : ∀ q m j, Reaches s q m → q < 3 → (s.setSlot n k v).slot m j = s.slot m j := by
    intro q m j hm hq
    rw [slot_setSlot, if_neg]
    rintro ⟨rfl, -⟩
    have := h.level q 3 m hm hn
    omega
  constructor
  · exact Reaches.of_same (root_setSlot s n k v) hsame
  · exact Reaches.mono (fun t _ => root_setSlot s n k v t) fun q m j hm hq _ => hsame q m j hm hq

theorem Shape.setLeaf (h : Shape s) (hn : Reaches s 3 n) (v : Ptr) :
    Shape (s.setSlot n k v) := by
  refine h.of_subset ?_ rfl fun q m => (reaches_setLeaf_iff h hn v).mp
  intro j
  rw [slot_setSlot, if_neg fun e => hn.ne e.1.symm, h.null]

end

/-! ## The parts of `radix_set`

What each part can end in.  The four functions that look up a root differ in what they
raise above the shortcut roots before the new one is put in place. -/

/-- The search of the root of level `t`. -/
def topNode (C : Calloc) (s : State) : Fin 4 → Ptr × State
  | 0 => rootL0Node C s
  | 1 => rootL1Node C s
  | 2 => rootL2Node C s
  | 3 => rootL3Node C s

/-- The way down from a node of level `r` along some slices. -/
def descend (C : Calloc) : (r : Nat) → State → Ptr → List (Fin radixSlots) → Ptr × State
  | _, s, n, [] => (n, s)
  | r, s, n, k :: path =>
    let (m, s) := child (fun s a => s.setRoot (Fin.ofNat 4 (r + 1)) a) C s n k
    if m = 0 then (0, s) else descend C (r + 1) s m path

/-- The steps between `calloc` and the new `root_l<t>`. -/
def raises (C : Calloc) (s : State) : Fin 4 → Bool × State
  | 0 =>
    match raiseL2 C s with
    | (false, s') => (false, s')
    | (true, s') => raiseL1 C s'
  | 1 => raiseL2 C s
  | 2 => (true, s)
  | 3 => (true, s)

/-- A root raised above the one of the next level. -/
inductive RaiseCase (C : Calloc) (s : State) (t : Fin 4) : Bool × State → Prop where
  | idle : s.root t ≠ 0 ∨ s.next t = 0 → RaiseCase C s t (true, s)
  | failed : s.root t = 0 → s.next t ≠ 0 → C.pick s.calls s.live = 0 →
      RaiseCase C s t (false, s.failed)
  | planted {a : Ptr} {s₁ s' : State} : s.root t = 0 → s.next t ≠ 0 →
      C.pick s.calls s.live = a → Fresh s a s₁ → Planted s₁ t a s' → RaiseCase C s t (true, s')

/-- The root from which the walk starts. -/
inductive TopCase (C : Calloc) (s : State) (t : Fin 4) : Ptr × State → Prop where
  | present : s.root t ≠ 0 → TopCase C s t (s.root t, s)
  | failed : s.root t = 0 → C.pick s.calls s.live = 0 → TopCase C s t (0, s.failed)
  | lost {a : Ptr} {s₁ s₂ : State} : s.root t = 0 → C.pick s.calls s.live = a → Fresh s a s₁ →
      raises C s₁ t = (false, s₂) → TopCase C s t (0, s₂)
  | planted {a : Ptr} {s₁ s₂ s' : State} : s.root t = 0 → C.pick s.calls s.live = a →
      Fresh s a s₁ → raises C s₁ t = (true, s₂) → Planted s₂ t a s' → TopCase C s t (a, s')

/-- The node of the next level, in slot `k` of `n`. -/
inductive ChildCase (C : Calloc) (s : State) (setRoot : State → Ptr → State) (n : Ptr)
    (k : Fin radixSlots) : Ptr × State → Prop where
  | present : s.slot n k ≠ 0 → ChildCase C s setRoot n k (s.slot n k, s)
  | failed : s.slot n k = 0 → C.pick s.calls s.live = 0 → ChildCase C s setRoot n k (0, s.failed)
  | hung {a : Ptr} {s₁ s' : State} : s.slot n k = 0 → C.pick s.calls s.live = a →
      Fresh s a s₁ → Hung s₁ n k a s' →
      ChildCase C s setRoot n k (a, if k = 0 then setRoot s' a else s')

section
variable {s s' : State} {a : Ptr}

theorem planted_setSlot (s : State) (t : Fin 4) (a : Ptr) :
    Planted s t a ((s.setSlot a 0 (s.next t)).setRoot t a) where
  live := by rw [live_setRoot, live_setSlot]
  calls := by rw [calls_setRoot]; rfl
  root u := by rw [root_setRoot, root_setSlot]
  slot m k := by rw [slot_setRoot, slot_setSlot]

theorem planted_setRoot {s : State} {a : Ptr} (ha : s.slot a 0 = 0) :
    Planted s 3 a (s.setRoot 3 a) where
  live := rfl
  calls := rfl
  root u := root_setRoot s 3 u a
  slot m k := by
    rw [slot_setRoot]
    by_cases hmk : m = a ∧ k = 0
    · rw [if_pos hmk, hmk.1, hmk.2, ha]
      rfl
    · rw [if_neg hmk]

theorem raiseL2_cases (C : Calloc) (s : State) : RaiseCase C s 2 (raiseL2 C s) := by
  by_cases hcond : s.rootL2 = 0 ∧ s.rootL3 ≠ 0
  · rcases newNode_cases C s with ⟨hpick, hnew⟩ | ⟨a, s₁, hpick, hnew, hf⟩
    · have heq : raiseL2 C s = (false, s.failed) := by
        have h2 : s.failed.rootL2 = 0 := hcond.1
        simp only [raiseL2, hcond, hnew, ne_eq, not_false_eq_true, and_self, if_true]
        rw [← h2]
      rw [heq]
      exact .failed hcond.1 hcond.2 hpick
    · have heq : raiseL2 C s = (true, (s₁.setSlot a 0 (s₁.next 2)).setRoot 2 a) := by
        simp only [raiseL2, hcond, hnew, hf.ne, ne_eq, not_false_eq_true, and_self, if_true,
          if_false]
        rfl
      rw [heq]
      exact .planted hcond.1 hcond.2 hpick hf (planted_setSlot s₁ 2 a)
  · have heq : raiseL2 C s = (true, s) := by rw [raiseL2, if_neg hcond]
    rw [heq]
    apply RaiseCase.idle
    by_cases h2 : s.rootL2 = 0
    · right
      by_contra h3
      exact hcond ⟨h2, h3⟩
    · exact .inl h2

theorem raiseL1_cases (C : Calloc) (s : State) : RaiseCase C s 1 (raiseL1 C s) := by
  by_cases hcond : s.rootL1 = 0 ∧ s.rootL2 ≠ 0
  · rcases newNode_cases C s with ⟨hpick, hnew⟩ | ⟨a, s₁, hpick, hnew, hf⟩
    · have heq : raiseL1 C s = (false, s.failed) := by
        have h1 : s.failed.rootL1 = 0 := hcond.1
        simp only [raiseL1, hcond, hnew, ne_eq, not_false_eq_true, and_self, if_true]
        rw [← h1]
      rw [heq]
      exact .failed hcond.1 hcond.2 hpick
    · have heq : raiseL1 C s = (true, (s₁.setSlot a 0 (s₁.next 1)).setRoot 1 a) := by
        simp only [raiseL1, hcond, hnew, hf.ne, ne_eq, not_false_eq_true, and_self, if_true,
          if_false]
        rfl
      rw [heq]
      exact .planted hcond.1 hcond.2 hpick hf (planted_setSlot s₁ 1 a)
  · have heq : raiseL1 C s = (true, s) := by rw [raiseL1, if_neg hcond]
    rw [heq]
    apply RaiseCase.idle
    by_cases h1 : s.rootL1 = 0
    · right
      by_contra h2
      exact hcond ⟨h1, h2⟩
    · exact .inl h1

theorem rootL3Node_cases (C : Calloc) (s : State) : TopCase C s 3 (rootL3Node C s) := by
  by_cases h3 : s.rootL3 = 0
  · rcases newNode_cases C s with ⟨hpick, hnew⟩ | ⟨a, s₁, hpick, hnew, hf⟩
    · have heq : rootL3Node C s = (0, s.failed) := by
        simp only [rootL3Node, h3, hnew, ne_eq, not_true_eq_false, if_false, if_true]
      rw [heq]
      exact .failed h3 hpick
    · have heq : rootL3Node C s = (a, s₁.setRoot 3 a) := by
        simp only [rootL3Node, h3, hnew, hf.ne, ne_eq, not_true_eq_false, if_false]
        rfl
      rw [heq]
      refine .planted h3 hpick hf rfl (planted_setRoot ?_)
      rw [hf.slot, if_pos rfl]
  · have heq : rootL3Node C s = (s.rootL3, s) := by simp [rootL3Node, h3]
    rw [heq]
    exact .present h3

theorem rootL2Node_cases (C : Calloc) (s : State) : TopCase C s 2 (rootL2Node C s) := by
  by_cases h2 : s.rootL2 = 0
  · rcases newNode_cases C s with ⟨hpick, hnew⟩ | ⟨a, s₁, hpick, hnew, hf⟩
    · have heq : rootL2Node C s = (0, s.failed) := by
        simp only [rootL2Node, h2, hnew, ne_eq, not_true_eq_false, if_false, if_true]
      rw [heq]
      exact .failed h2 hpick
    · have heq : rootL2Node C s = (a, (s₁.setSlot a 0 (s₁.next 2)).setRoot 2 a) := by
        simp only [rootL2Node, h2, hnew, hf.ne, ne_eq, not_true_eq_false, if_false]
        rfl
      rw [heq]
      exact .planted h2 hpick hf rfl (planted_setSlot s₁ 2 a)
  · have heq : rootL2Node C s = (s.rootL2, s) := by simp [rootL2Node, h2]
    rw [heq]
    exact .present h2

theorem rootL1Node_cases (C : Calloc) (s : State) : TopCase C s 1 (rootL1Node C s) := by
  by_cases h1 : s.rootL1 = 0
  · rcases newNode_cases C s with ⟨hpick, hnew⟩ | ⟨a, s₁, hpick, hnew, hf⟩
    · have heq : rootL1Node C s = (0, s.failed) := by
        simp only [rootL1Node, h1, hnew, ne_eq, not_true_eq_false, if_false, if_true]
      rw [heq]
      exact .failed h1 hpick
    · obtain ⟨⟨ok, s₂⟩, hraise⟩ : ∃ r, raiseL2 C s₁ = r := ⟨_, rfl⟩
      cases ok with
      | false =>
        have heq : rootL1Node C s = (0, s₂) := by
          simp only [rootL1Node, h1, hnew, hf.ne, hraise, ne_eq, not_true_eq_false, if_false,
            if_true]
        rw [heq]
        exact .lost h1 hpick hf hraise
      | true =>
        have heq : rootL1Node C s = (a, (s₂.setSlot a 0 (s₂.next 1)).setRoot 1 a) := by
          simp only [rootL1Node, h1, hnew, hf.ne, hraise, ne_eq, not_true_eq_false, if_false]
          rfl
        rw [heq]
        exact .planted h1 hpick hf hraise (planted_setSlot s₂ 1 a)
  · have heq : rootL1Node C s = (s.rootL1, s) := by simp [rootL1Node, h1]
    rw [heq]
    exact .present h1

theorem rootL0Node_cases (C : Calloc) (s : State) : TopCase C s 0 (rootL0Node C s) := by
  by_cases h0 : s.rootL0 = 0
  · rcases newNode_cases C s with ⟨hpick, hnew⟩ | ⟨a, s₁, hpick, hnew, hf⟩
    · have heq : rootL0Node C s = (0, s.failed) := by
        simp only [rootL0Node, h0, hnew, ne_eq, not_true_eq_false, if_false, if_true]
      rw [heq]
      exact .failed h0 hpick
    · obtain ⟨⟨ok, s₂⟩, hraise⟩ : ∃ r, raiseL2 C s₁ = r := ⟨_, rfl⟩
      cases ok with
      | false =>
        have heq : rootL0Node C s = (0, s₂) := by
          simp only [rootL0Node, h0, hnew, hf.ne, hraise, ne_eq, not_true_eq_false, if_false,
            if_true]
        rw [heq]
        exact .lost h0 hpick hf (by rw [raises, hraise])
      | true =>
        obtain ⟨⟨ok, s₃⟩, hraise'⟩ : ∃ r, raiseL1 C s₂ = r := ⟨_, rfl⟩
        have hraises : raises C s₁ 0 = (ok, s₃) := by rw [raises, hraise, ← hraise']
        cases ok with
        | false =>
          have heq : rootL0Node C s = (0, s₃) := by
            simp only [rootL0Node, h0, hnew, hf.ne, hraise, hraise', ne_eq, not_true_eq_false,
              if_false, if_true, Bool.true_eq_false]
          rw [heq]
          exact .lost h0 hpick hf hraises
        | true =>
          have heq : rootL0Node C s = (a, (s₃.setSlot a 0 (s₃.next 0)).setRoot 0 a) := by
            simp only [rootL0Node, h0, hnew, hf.ne, hraise, hraise', ne_eq, not_true_eq_false,
              if_false, Bool.true_eq_false]
            rfl
          rw [heq]
          exact .planted h0 hpick hf hraises (planted_setSlot s₃ 0 a)
  · have heq : rootL0Node C s = (s.rootL0, s) := by simp [rootL0Node, h0]
    rw [heq]
    exact .present h0

theorem child_cases (setRoot : State → Ptr → State) (C : Calloc) (s : State) (n : Ptr)
    (k : Fin radixSlots) : ChildCase C s setRoot n k (child setRoot C s n k) := by
  by_cases hk : s.slot n k = 0
  · rcases newNode_cases C s with ⟨hpick, hnew⟩ | ⟨a, s₁, hpick, hnew, hf⟩
    · have heq : child setRoot C s n k = (0, s.failed) := by
        simp only [child, hk, hnew, ne_eq, not_true_eq_false, if_false, if_true]
      rw [heq]
      exact .failed hk hpick
    · have heq : child setRoot C s n k =
          (a, if k = 0 then setRoot (s₁.setSlot n k a) a else s₁.setSlot n k a) := by
        simp only [child, hk, hnew, hf.ne, ne_eq, not_true_eq_false, if_false]
      rw [heq]
      exact .hung hk hpick hf (hung_setSlot s₁ n k a)
  · have heq : child setRoot C s n k = (s.slot n k, s) := by simp [child, hk]
    rw [heq]
    exact .present hk

theorem topNode_cases (C : Calloc) (s : State) (t : Fin 4) : TopCase C s t (topNode C s t) := by
  fin_cases t
  · exact rootL0Node_cases C s
  · exact rootL1Node_cases C s
  · exact rootL2Node_cases C s
  · exact rootL3Node_cases C s

theorem descend_two (C : Calloc) (s : State) (n : Ptr) (k : Fin radixSlots) :
    descend C (2 : Fin 4).val s n [k] = childL3 C s n k := by
  change (if (childL3 C s n k).1 = 0 then (0, (childL3 C s n k).2) else childL3 C s n k) =
    childL3 C s n k
  split_ifs with h
  · rw [← h]
  · rfl

theorem descend_one (C : Calloc) (s : State) (n : Ptr) (k j : Fin radixSlots) :
    descend C (1 : Fin 4).val s n [k, j] =
      let (m, s) := childL2 C s n k
      if m = 0 then (0, s) else descend C (2 : Fin 4).val s m [j] := rfl

theorem descend_zero (C : Calloc) (s : State) (n : Ptr) (k j l : Fin radixSlots) :
    descend C (0 : Fin 4).val s n [k, j, l] =
      let (m, s) := childL1 C s n k
      if m = 0 then (0, s) else descend C (1 : Fin 4).val s m [j, l] := rfl

/-- `radix_set` is the search of the root, the way down, and the store. -/
theorem radixSet_eq_descend (C : Calloc) (s : State) (i : UInt32) (v : Ptr) :
    radixSet C s i v =
      let (n, s) := topNode C s (slices i).1
      if n = 0 then (-1, s) else
      let (n3, s) := descend C (slices i).1.val s n (slices i).2
      if n3 = 0 then (-1, s) else (0, s.setSlot n3 (l3 i) v) := by
  by_cases h1 : i < 0x100
  · simp only [radixSet, slices, h1, if_true, topNode, descend]
    by_cases hn : (rootL3Node C s).1 = 0
    · simp only [hn, if_true]
    · simp only [hn, if_false]
  by_cases h2 : i < 0x10000
  · simp only [radixSet, slices, h1, h2, if_true, if_false, topNode, descend_two]
  by_cases h3 : i < 0x1000000
  · simp only [radixSet, slices, h1, h2, h3, if_true, if_false, topNode, descend_one, descend_two]
    by_cases hn1 : (rootL1Node C s).1 = 0
    · simp only [hn1, if_true]
    by_cases hn2 : (childL2 C (rootL1Node C s).2 (rootL1Node C s).1 (l1 i)).1 = 0
    · simp only [hn1, hn2, if_true, if_false]
    · simp only [hn1, hn2, if_false]
  · simp only [radixSet, slices, h1, h2, h3, if_false, topNode, descend_zero, descend_one,
      descend_two]
    by_cases hn0 : (rootL0Node C s).1 = 0
    · simp only [hn0, if_true]
    generalize rootL0Node C s = top at hn0 ⊢
    by_cases hn1 : (childL1 C top.2 top.1 (l0 i)).1 = 0
    · simp only [hn0, hn1, if_true, if_false]
    generalize childL1 C top.2 top.1 (l0 i) = res at hn1 ⊢
    by_cases hn2 : (childL2 C res.2 res.1 (l1 i)).1 = 0
    · simp only [hn0, hn1, hn2, if_true, if_false]
    · simp only [hn0, hn1, hn2, if_false]

end

end Ko6.Common.Radix
