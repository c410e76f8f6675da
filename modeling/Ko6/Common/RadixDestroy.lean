import Ko6.Common.RadixNodes

set_option autoImplicit false

/-!
# Common: what `radix_destroy` frees

`radix_destroy` walks down from the highest root and frees each node after the nodes in
its slots.  A node is freed as often as it occurs below that root.  Every call of
`radix_set` leaves that number as it is for the nodes already there; so what counts is
whether a new node is put below the highest root.  The calls that do not are those that
create a root below an existing one.
-/

namespace Ko6.Common.Radix

/-! ## `radix_destroy` -/

/-- What is given back to `free`. -/
inductive Block where
  | node (a : Ptr)
  | radix
  deriving DecidableEq

/-- The loop over `i2`, and `free (l2)`. -/
def destroyL2 (s : State) (n2 : Ptr) : List Block :=
  ((List.finRange radixSlots).flatMap fun i2 =>
    let n3 := s.slot n2 i2
    if n3 = 0 then [] else [.node n3]) ++ [.node n2]

/-- The loop over `i1`, and `free (l1)`. -/
def destroyL1 (s : State) (n1 : Ptr) : List Block :=
  ((List.finRange radixSlots).flatMap fun i1 =>
    let n2 := s.slot n1 i1
    if n2 = 0 then [] else destroyL2 s n2) ++ [.node n1]

/-- The loop over `i0`, and `free (l0)`. -/
def destroyL0 (s : State) (n0 : Ptr) : List Block :=
  ((List.finRange radixSlots).flatMap fun i0 =>
    let n1 := s.slot n0 i0
    if n1 = 0 then [] else destroyL1 s n1) ++ [.node n0]

/-- `radix_destroy` on an existing tree: the blocks it frees, in order.  There is no case
for a tree that has `root_l3` only. -/
def radixDestroy (s : State) : List Block :=
  (if s.rootL0 ≠ 0 then destroyL0 s s.rootL0
   else if s.rootL1 ≠ 0 then destroyL1 s s.rootL1
   else if s.rootL2 ≠ 0 then destroyL2 s s.rootL2
   else []) ++ [.radix]

/-- Every node allocated is freed once, the `radix_t` is freed once, and nothing else. -/
structure FreesOnce (s : State) : Prop where
  node : ∀ a, (radixDestroy s).count (.node a) = if a ∈ s.live then 1 else 0
  radix : (radixDestroy s).count .radix = 1

/-! ## Occurrences of a node -/

/-- How often `x` occurs in the tree of the node `n`, at `height` levels above the leaves. -/
def occurs (s : State) : (height : Nat) → Ptr → Ptr → Nat
  | 0, n, x => if n = x then 1 else 0
  | height + 1, n, x =>
    (∑ k, if s.slot n k = 0 then 0 else occurs s height (s.slot n k) x) + if n = x then 1 else 0

/-- How often `x` occurs below the highest root. -/
def treeCount (s : State) (x : Ptr) : Nat :=
  if s.rootL0 ≠ 0 then occurs s 3 s.rootL0 x
  else if s.rootL1 ≠ 0 then occurs s 2 s.rootL1 x
  else if s.rootL2 ≠ 0 then occurs s 1 s.rootL2 x
  else if s.rootL3 ≠ 0 then occurs s 0 s.rootL3 x
  else 0

section
variable {s s' : State} {r q height : Nat} {n m a b x : Ptr} {k : Fin radixSlots} {t : Fin 4}

/-- What one loop of `radix_destroy` frees. -/
theorem count_slots {f : Ptr → List Block} {g : Ptr → Nat} (bl : Block)
    (hfg : ∀ m, (f m).count bl = g m) (n : Ptr) :
    ((List.finRange radixSlots).flatMap fun k =>
      if s.slot n k = 0 then [] else f (s.slot n k)).count bl =
      ∑ k, if s.slot n k = 0 then 0 else g (s.slot n k) := by
  rw [List.count_flatMap, Fin.sum_univ_def]
  congr 1
  apply List.map_congr_left
  intro k _
  simp only [Function.comp_apply]
  split_ifs
  · rfl
  · exact hfg _

theorem count_singleton_node : List.count (Block.node x) [.node n] = if n = x then 1 else 0 := by
  simp [List.count_singleton]

theorem count_destroyL2 (n : Ptr) : (destroyL2 s n).count (.node x) = occurs s 1 n x := by
  rw [destroyL2, List.count_append, count_slots (.node x) (f := fun m => [.node m])
    (g := fun m => if m = x then 1 else 0) (fun _ => count_singleton_node) n,
    count_singleton_node]
  rfl

theorem count_destroyL1 (n : Ptr) : (destroyL1 s n).count (.node x) = occurs s 2 n x := by
  rw [destroyL1, List.count_append, count_slots (.node x) count_destroyL2 n,
    count_singleton_node]
  rfl

theorem count_destroyL0 (n : Ptr) : (destroyL0 s n).count (.node x) = occurs s 3 n x := by
  rw [destroyL0, List.count_append, count_slots (.node x) count_destroyL1 n,
    count_singleton_node]
  rfl

theorem count_radix_destroyL2 (n : Ptr) : (destroyL2 s n).count .radix = 0 := by
  rw [destroyL2, List.count_append,
    count_slots .radix (f := fun m => [.node m]) (g := fun _ => 0) (fun m => rfl) n]
  simp

theorem count_radix_destroyL1 (n : Ptr) : (destroyL1 s n).count .radix = 0 := by
  rw [destroyL1, List.count_append,
    count_slots .radix (g := fun _ => 0) count_radix_destroyL2 n]
  simp

theorem count_radix_destroyL0 (n : Ptr) : (destroyL0 s n).count .radix = 0 := by
  rw [destroyL0, List.count_append,
    count_slots .radix (g := fun _ => 0) count_radix_destroyL1 n]
  simp

/-- The `radix_t` is always freed once. -/
theorem count_radix (s : State) : (radixDestroy s).count .radix = 1 := by
  rw [radixDestroy, List.count_append]
  split_ifs
  · rw [count_radix_destroyL0]
    rfl
  · rw [count_radix_destroyL1]
    rfl
  · rw [count_radix_destroyL2]
    rfl
  · rfl

/-- A node is freed as often as it occurs below the highest root, if that is not
`root_l3`. -/
theorem count_node (hroot : s.rootL0 ≠ 0 ∨ s.rootL1 ≠ 0 ∨ s.rootL2 ≠ 0 ∨ s.rootL3 = 0) :
    (radixDestroy s).count (.node x) = treeCount s x := by
  rw [radixDestroy, List.count_append, treeCount]
  have hlast : List.count (Block.node x) [.radix] = 0 := rfl
  rw [hlast, Nat.add_zero]
  split_ifs with h0 h1 h2 h3
  · exact count_destroyL0 s.rootL0
  · exact count_destroyL1 s.rootL1
  · exact count_destroyL2 s.rootL2
  · rcases hroot with h | h | h | h
    · exact absurd h h0
    · exact absurd h h1
    · exact absurd h h2
    · exact absurd h h3
  · rfl

/-! ### Occurrences and steps -/

/-- What occurs in the tree of a node is reached, at its level or below. -/
theorem occurs_reaches (hn : Reaches s r n) (hr : r + height = 3)
    (hx : occurs s height n x ≠ 0) : ∃ q, r ≤ q ∧ Reaches s q x := by
  induction height generalizing r n with
  | zero =>
    simp only [occurs, ne_eq, ite_eq_right_iff, one_ne_zero, imp_false, not_not] at hx
    exact ⟨r, Nat.le_refl r, hx ▸ hn⟩
  | succ height ih =>
    by_cases hnx : n = x
    · exact ⟨r, Nat.le_refl r, hnx ▸ hn⟩
    · simp only [occurs, hnx, if_false, Nat.add_zero] at hx
      obtain ⟨k, -, hk⟩ := Finset.exists_ne_zero_of_sum_ne_zero hx
      by_cases hnk : s.slot n k = 0
      · rw [if_pos hnk] at hk
        exact absurd rfl hk
      · rw [if_neg hnk] at hk
        obtain ⟨q, hq, hxq⟩ := ih (.slot k hn (by omega) hnk) (by omega) hk
        exact ⟨q, by omega, hxq⟩

/-- A node does not occur below itself or below a node of its level. -/
theorem occurs_eq_zero (hn : Reaches s r n) (hr : r + height = 3)
    (hx : ∀ q, Reaches s q x → q < r) : occurs s height n x = 0 := by
  by_contra hne
  obtain ⟨q, hq, hxq⟩ := occurs_reaches hn hr hne
  have := hx q hxq
  omega

theorem occurs_congr (hslot : ∀ q m k, Reaches s q m → q < 3 → s'.slot m k = s.slot m k)
    (hn : Reaches s r n) (hr : r + height = 3) :
    occurs s' height n x = occurs s height n x := by
  induction height generalizing r n with
  | zero => rfl
  | succ height ih =>
    have hterm : ∀ k, (if s'.slot n k = 0 then 0 else occurs s' height (s'.slot n k) x) =
        if s.slot n k = 0 then 0 else occurs s height (s.slot n k) x := by
      intro k
      rw [hslot r n k hn (by omega)]
      by_cases hk : s.slot n k = 0
      · rw [if_pos hk, if_pos hk]
      · rw [if_neg hk, if_neg hk, ih (.slot k hn (by omega) hk) (by omega)]
    simp only [occurs, hterm]

/-- A node without contents holds itself only. -/
theorem occurs_of_empty (hempty : ∀ k, s.slot a k = 0) :
    occurs s height a x = if a = x then 1 else 0 := by
  cases height with
  | zero => rfl
  | succ height => simp [occurs, hempty]

/-- A new node in an empty slot occurs as often as the node it hangs on. -/
theorem occurs_hung (h : Shape s) (hh : Hung s n k a s') (hn : Reaches s r n) (hr : r < 3)
    (hk : s.slot n k = 0) (ha : Loose s a) (hm : Reaches s q m) (hq : q + height = 3) :
    occurs s' height m x = occurs s height m x + if x = a then occurs s height m n else 0 := by
  have han : a ≠ n := by
    rintro rfl
    exact ha.unreached r hn
  induction height generalizing q m with
  | zero =>
    have hmn : m ≠ n := by
      rintro rfl
      have := h.level q r m hm hn
      omega
    simp [occurs, hmn]
  | succ height ih =>
    by_cases hmn : m = n
    · subst hmn
      have hself : occurs s (height + 1) m m = 1 := by
        simp only [occurs, if_true]
        rw [Nat.add_eq_right, Finset.sum_eq_zero]
        intro j _
        by_cases hj : s.slot m j = 0
        · rw [if_pos hj]
        · rw [if_neg hj]
          apply occurs_eq_zero (.slot j hm (by omega) hj) (by omega)
          intro p hp
          have := h.level p q m hp hm
          omega
      have hterm : ∀ j, (if s'.slot m j = 0 then 0 else occurs s' height (s'.slot m j) x) =
          (if s.slot m j = 0 then 0 else occurs s height (s.slot m j) x) +
            if j = k then (if x = a then 1 else 0) else 0 := by
        intro j
        by_cases hj : j = k
        · subst hj
          have hempty : ∀ i, s'.slot a i = 0 := by
            intro i
            rw [hh.slot, if_neg fun e => han e.1, ha.empty]
          have hnew : s'.slot m j = a := by rw [hh.slot, if_pos ⟨rfl, rfl⟩]
          rw [hnew, if_neg ha.ne, occurs_of_empty hempty, if_pos hk, if_pos rfl, Nat.zero_add]
          simp only [eq_comm]
        · have hsame : s'.slot m j = s.slot m j := by rw [hh.slot, if_neg fun e => hj e.2]
          rw [hsame, if_neg hj, Nat.add_zero]
          by_cases hmj : s.slot m j = 0
          · rw [if_pos hmj, if_pos hmj]
          · rw [if_neg hmj, if_neg hmj, ih (.slot j hm (by omega) hmj) (by omega)]
            have hzero : occurs s height (s.slot m j) m = 0 := by
              apply occurs_eq_zero (.slot j hm (by omega) hmj) (by omega)
              intro p hp
              have := h.level p q m hp hm
              omega
            rw [hzero, ite_self, Nat.add_zero]
      rw [hself]
      simp only [occurs]
      rw [Finset.sum_congr rfl fun j _ => hterm j, Finset.sum_add_distrib,
        Finset.sum_ite_eq' Finset.univ k, if_pos (Finset.mem_univ k)]
      omega
    · have hterm : ∀ j, (if s'.slot m j = 0 then 0 else occurs s' height (s'.slot m j) x) =
          (if s.slot m j = 0 then 0 else occurs s height (s.slot m j) x) +
            if x = a then (if s.slot m j = 0 then 0 else occurs s height (s.slot m j) n) else 0 := by
        intro j
        have hsame : s'.slot m j = s.slot m j := by rw [hh.slot, if_neg fun e => hmn e.1]
        rw [hsame]
        by_cases hmj : s.slot m j = 0
        · rw [if_pos hmj, if_pos hmj, if_pos hmj, ite_self]
        · rw [if_neg hmj, if_neg hmj, if_neg hmj, ih (.slot j hm (by omega) hmj) (by omega)]
      simp only [occurs, hmn, if_false, Nat.add_zero]
      rw [Finset.sum_congr rfl fun j _ => hterm j, Finset.sum_add_distrib]
      by_cases hxa : x = a
      · simp only [if_pos hxa]
        omega
      · simp only [if_neg hxa, Finset.sum_const_zero]
        omega

/-! ### The tree of the highest root -/

theorem exists_top (s : State) :
    (∀ t, s.root t = 0) ∨ ∃ t, s.root t ≠ 0 ∧ ∀ q < t, s.root q = 0 := by
  by_cases hnone : ∀ t, s.root t = 0
  · exact .inl hnone
  · rw [not_forall] at hnone
    obtain ⟨t, ht, hmin⟩ := WellFounded.has_min
      (wellFounded_lt : WellFounded ((· < ·) : Fin 4 → Fin 4 → Prop)) {t | s.root t ≠ 0} hnone
    exact .inr ⟨t, ht, fun q hq => not_not.mp fun hne => hmin q hne hq⟩

theorem treeCount_none (h : ∀ t, s.root t = 0) : treeCount s x = 0 := by
  have h0 : s.rootL0 = 0 := h 0
  have h1 : s.rootL1 = 0 := h 1
  have h2 : s.rootL2 = 0 := h 2
  have h3 : s.rootL3 = 0 := h 3
  simp [treeCount, h0, h1, h2, h3]

theorem treeCount_top (ht : s.root t ≠ 0) (habove : ∀ q < t, s.root q = 0) :
    treeCount s x = occurs s (3 - t.val) (s.root t) x := by
  unfold treeCount
  fin_cases t
  · exact if_pos ht
  · have h0 : s.rootL0 = 0 := habove 0 (by decide)
    rw [if_neg (not_not.mpr h0)]
    exact if_pos ht
  · have h0 : s.rootL0 = 0 := habove 0 (by decide)
    have h1 : s.rootL1 = 0 := habove 1 (by decide)
    rw [if_neg (not_not.mpr h0), if_neg (not_not.mpr h1)]
    exact if_pos ht
  · have h0 : s.rootL0 = 0 := habove 0 (by decide)
    have h1 : s.rootL1 = 0 := habove 1 (by decide)
    have h2 : s.rootL2 = 0 := habove 2 (by decide)
    rw [if_neg (not_not.mpr h0), if_neg (not_not.mpr h1), if_neg (not_not.mpr h2)]
    exact if_pos ht

theorem treeCount_reaches (hx : treeCount s x ≠ 0) : ∃ q, Reaches s q x := by
  rcases exists_top s with hnone | ⟨t, ht, habove⟩
  · exact absurd (treeCount_none hnone) hx
  · rw [treeCount_top ht habove] at hx
    obtain ⟨q, -, hq⟩ := occurs_reaches (.root t ht) (by omega) hx
    exact ⟨q, hq⟩

/-- The counts depend on the highest root and on the nodes reached. -/
theorem treeCount_congr (hroot : ∀ t, (∀ q < t, s.root q = 0) → s'.root t = s.root t)
    (hslot : ∀ q m k, Reaches s q m → q < 3 → s'.slot m k = s.slot m k) :
    treeCount s' x = treeCount s x := by
  rcases exists_top s with hnone | ⟨t, ht, habove⟩
  · rw [treeCount_none hnone]
    apply treeCount_none
    intro t
    rw [hroot t fun q _ => hnone q, hnone t]
  · have ht' := hroot t habove
    have habove' : ∀ q < t, s'.root q = 0 := by
      intro q hq
      rw [hroot q fun p hp => habove p (hp.trans hq), habove q hq]
    rw [treeCount_top ht habove, treeCount_top (by rwa [ht']) habove', ht']
    exact occurs_congr hslot (.root t ht) (by omega)

/-- A new root above all others, with the old highest one in its slot 0. -/
theorem Planted.treeCount_eq (hp : Planted s t a s') (ht : s.root t = 0) (ha : Loose s a)
    (habove : ∀ q < t, s.root q = 0) (hnext : s.next t = 0 → ∀ q, s.root q = 0) :
    treeCount s' x = treeCount s x + if a = x then 1 else 0 := by
  have hroot : s'.root t = a := by rw [hp.root, if_pos rfl]
  have habove' : ∀ q < t, s'.root q = 0 := by
    intro q hq
    rw [hp.root, if_neg hq.ne, habove q hq]
  rw [treeCount_top (hroot ▸ ha.ne) habove', hroot]
  by_cases hz : s.next t = 0
  · -- the first root
    have hempty : ∀ k, s'.slot a k = 0 := by
      intro k
      rw [hp.slot, hz, ha.empty, ite_self]
    rw [treeCount_none (hnext hz), occurs_of_empty hempty, Nat.zero_add]
  · have hlt : t.val + 1 < 4 := by
      by_contra hge
      have ht3 : t = 3 := Fin.ext (show t.val = 3 by have := t.isLt; omega)
      exact hz (by rw [ht3]; rfl)
    have hu := next_eq_root (s := s) (t := t) (u := ⟨t.val + 1, hlt⟩) rfl
    have hne : s.root ⟨t.val + 1, hlt⟩ ≠ 0 := hu ▸ hz
    have hold : treeCount s x = occurs s (2 - t.val) (s.next t) x := by
      rw [hu, treeCount_top hne, show 3 - (t.val + 1) = 2 - t.val by omega]
      intro q hq
      rw [Fin.lt_def] at hq
      by_cases hqt : q = t
      · rw [hqt, ht]
      · exact habove q (lt_of_le_of_ne (Fin.le_def.mpr (Nat.le_of_lt_succ hq)) hqt)
    have hsame : ∀ q m k, Reaches s q m → q < 3 → s'.slot m k = s.slot m k := by
      intro q m k hm _
      rw [hp.slot, if_neg]
      rintro ⟨rfl, -⟩
      exact ha.unreached q hm
    have hnew : occurs s' (2 - t.val) (s.next t) x = occurs s (2 - t.val) (s.next t) x :=
      occurs_congr hsame (next_reaches hz) (by omega)
    rw [hold, ← hnew, show 3 - t.val = (2 - t.val) + 1 by omega]
    simp only [occurs]
    rw [Finset.sum_eq_single 0]
    · have hslot : s'.slot a 0 = s.next t := by rw [hp.slot, if_pos ⟨rfl, rfl⟩]
      rw [hslot, if_neg hz]
    · intro k _ hk
      have hslot : s'.slot a k = 0 := by rw [hp.slot, if_neg fun e => hk e.2, ha.empty]
      rw [hslot, if_pos rfl]
    · exact fun h0 => absurd (Finset.mem_univ _) h0

/-- A new root below another one is not looked at. -/
theorem Planted.treeCount_same {u : Fin 4} (hp : Planted s t a s') (ha : Loose s a)
    (hu : u < t) (hroot : s.root u ≠ 0) : treeCount s' x = treeCount s x := by
  apply treeCount_congr
  · intro v hv
    rw [hp.root, if_neg]
    rintro rfl
    exact hroot (hv u hu)
  · intro q m k hm _
    rw [hp.slot, if_neg]
    rintro ⟨rfl, -⟩
    exact ha.unreached q hm

theorem Hung.treeCount_eq (h : Shape s) (hh : Hung s n k a s') (hn : Reaches s r n) (hr : r < 3)
    (hk : s.slot n k = 0) (ha : Loose s a) :
    treeCount s' x = treeCount s x + if x = a then treeCount s n else 0 := by
  rcases exists_top s with hnone | ⟨t, ht, habove⟩
  · obtain ⟨t, -, ht⟩ := hn.exists_root
    exact absurd (hnone t) ht
  · have habove' : ∀ q < t, s'.root q = 0 := by
      intro q hq
      rw [hh.root, habove q hq]
    have ht' : s'.root t ≠ 0 := by rwa [hh.root]
    rw [treeCount_top ht habove, treeCount_top ht' habove', treeCount_top ht habove, hh.root]
    exact occurs_hung h hh hn hr hk ha (.root t ht) (by omega)

end

/-! ## `radix_set` and the counts -/

/-- The nodes of `s` are still there, and occur as often as before. -/
structure Kept (s s' : State) : Prop where
  live : s.live ⊆ s'.live
  count : ∀ x ∈ s.live, treeCount s' x = treeCount s x

/-- Every node but those of `E`, which are being put in place, occurs once. -/
def Whole (s : State) (E : Finset Ptr) : Prop := ∀ x ∈ s.live, x ∉ E → treeCount s x = 1

/-- `radix_set` at `i` creates a node that is not put below the highest root: its root is
missing while there is a root above, or it creates `root_l0` above `root_l1`, and
`root_l2` for `root_l3` without the node of `root_l1`. -/
def Leaks (s : State) (i : UInt32) : Prop :=
  (s.root (slices i).1 = 0 ∧ ∃ q < (slices i).1, s.root q ≠ 0) ∨
    ((slices i).1 = 0 ∧ s.rootL0 = 0 ∧ s.rootL1 ≠ 0 ∧ s.rootL2 = 0 ∧ s.rootL3 ≠ 0)

instance (s : State) (i : UInt32) : Decidable (Leaks s i) :=
  inferInstanceAs (Decidable (_ ∨ _))

section
variable {C : Calloc} {s s' s'' : State} {E : Finset Ptr} {a b n : Ptr} {r : Nat} {t : Fin 4}
  {k : Fin radixSlots}

theorem Kept.refl (s : State) : Kept s s := ⟨Finset.Subset.refl _, fun _ _ => rfl⟩

theorem Kept.trans (h : Kept s s') (h' : Kept s' s'') : Kept s s'' := by
  refine ⟨h.live.trans h'.live, ?_⟩
  intro x hx
  rw [h'.count x (h.live hx), h.count x hx]

theorem Kept.whole (h : Kept s s') (hw : Whole s' E) : Whole s E := by
  intro x hx hE
  rw [← h.count x hx]
  exact hw x (h.live hx) hE

/-- A node in place of which nothing hangs does not count. -/
theorem Loose.treeCount_eq (ha : Loose s a) : treeCount s a = 0 := by
  by_contra hne
  obtain ⟨q, hq⟩ := treeCount_reaches hne
  exact ha.unreached q hq

theorem Fresh.kept (hf : Fresh s a s') (h : Shape s) : Kept s s' := by
  refine ⟨hf.live ▸ Finset.subset_insert a s.live, fun x _ => ?_⟩
  apply treeCount_congr fun t _ => hf.root t
  intro q m k hm _
  rw [hf.slot, if_neg]
  rintro rfl
  exact hf.new (h.live q m hm)

theorem Fresh.whole_iff (hf : Fresh s a s') (h : Shape s) :
    Whole s' (insert a E) ↔ Whole s E := by
  constructor
  · intro hw x hx hE
    rw [← (hf.kept h).count x hx]
    apply hw x ((hf.kept h).live hx)
    rw [Finset.mem_insert, not_or]
    refine ⟨?_, hE⟩
    rintro rfl
    exact hf.new hx
  · intro hw x hx hE
    rw [Finset.mem_insert, not_or] at hE
    rw [hf.live, Finset.mem_insert] at hx
    have hx := hx.resolve_left hE.1
    rw [(hf.kept h).count x hx]
    exact hw x hx hE.2

/-- A step that puts `a` where it occurs `c` times. -/
theorem whole_iff_of_count {c : Nat} (hlive : s'.live = s.live) (ha : Loose s a)
    (haE : a ∉ E) (hcount : ∀ x, treeCount s' x = treeCount s x + if a = x then c else 0) :
    Whole s' E ↔ Whole s (insert a E) ∧ c = 1 := by
  have hself : treeCount s' a = c := by
    rw [hcount, ha.treeCount_eq, if_pos rfl, Nat.zero_add]
  constructor
  · intro hw
    refine ⟨?_, ?_⟩
    · intro x hx hE
      rw [Finset.mem_insert, not_or] at hE
      have hone := hw x (hlive ▸ hx) hE.2
      rwa [hcount, if_neg fun e => hE.1 e.symm, Nat.add_zero] at hone
    · rw [← hself]
      exact hw a (hlive ▸ ha.live) haE
  · rintro ⟨hw, rfl⟩ x hx hE
    by_cases hxa : x = a
    · rw [hxa, hself]
    · rw [hcount, if_neg fun e => hxa e.symm, Nat.add_zero]
      rw [hlive] at hx
      apply hw x hx
      rw [Finset.mem_insert, not_or]
      exact ⟨hxa, hE⟩

theorem kept_of_count {c : Nat} (hlive : s''.live = s'.live)
    (hcount : ∀ x, treeCount s'' x = treeCount s' x + if a = x then c else 0)
    (hkept : Kept s s') (hnew : a ∉ s.live) : Kept s s'' := by
  refine ⟨hlive ▸ hkept.live, fun x hx => ?_⟩
  rw [hcount, if_neg, Nat.add_zero, hkept.count x hx]
  rintro rfl
  exact hnew hx

/-- What every part of `radix_set` keeps. -/
structure Grows (s s' : State) : Prop where
  shape : Shape s'
  kept : Kept s s'
  loose : ∀ b, Loose s b → Loose s' b

theorem Grows.refl (h : Shape s) : Grows s s := ⟨h, Kept.refl s, fun _ hb => hb⟩

theorem Grows.trans (h : Grows s s') (h' : Grows s' s'') : Grows s s'' :=
  ⟨h'.shape, h.kept.trans h'.kept, fun b hb => h'.loose b (h.loose b hb)⟩

theorem Fresh.grows (hf : Fresh s a s') (h : Shape s) : Grows s s' :=
  ⟨hf.shape h, hf.kept h, fun _ hb => (hf.keep_loose h hb).1⟩

/-- A new root counts once when there is none above it, else not at all. -/
theorem Planted.count (hp : Planted s t a s') (ht : s.root t = 0) (ha : Loose s a)
    (hnext : s.next t = 0 → ∀ q, t < q → s.root q = 0) (x : Ptr) :
    treeCount s' x =
      treeCount s x + if a = x then (if ∃ u < t, s.root u ≠ 0 then 0 else 1) else 0 := by
  by_cases habove : ∃ u < t, s.root u ≠ 0
  · rw [if_pos habove, ite_self, Nat.add_zero]
    obtain ⟨u, hu, hroot⟩ := habove
    exact hp.treeCount_same ha hu hroot
  · rw [if_neg habove]
    have hzero : ∀ q < t, s.root q = 0 := by
      intro q hq
      by_contra hne
      exact habove ⟨q, hq, hne⟩
    apply hp.treeCount_eq ht ha hzero
    intro hz q
    rcases lt_trichotomy q t with hlt | rfl | hgt
    · exact hzero q hlt
    · exact ht
    · exact hnext hz q hgt

/-- A node from `calloc` becomes a root, after other steps. -/
theorem Fresh.plant (hf : Fresh s a s') (h : Shape s) {s₂ s₃ : State} (hg : Grows s' s₂)
    (hp : Planted s₂ t a s₃) (ht : s₂.root t = 0)
    (hnext : s₂.next t = 0 → ∀ q, t < q → s₂.root q = 0) :
    Grows s s₃ ∧ ∀ E ⊆ s.live,
      (Whole s₃ E ↔ Whole s₂ (insert a E) ∧ ¬ ∃ u < t, s₂.root u ≠ 0) := by
  have ha : Loose s₂ a := hg.loose a (hf.loose h)
  have hcount := hp.count ht ha hnext
  have hkept := kept_of_count hp.live hcount ((hf.kept h).trans hg.kept) hf.new
  refine ⟨⟨hp.shape hg.shape ht ha, hkept, ?_⟩, ?_⟩
  · intro b hb
    obtain ⟨hb', hba⟩ := hf.keep_loose h hb
    exact hp.keep_loose ht ha (hg.loose b hb') hba
  · intro E hE
    rw [whole_iff_of_count hp.live ha (fun haE => hf.new (hE haE)) hcount]
    simp only [ite_eq_right_iff, zero_ne_one, imp_false]

/-- A root raised above another one is not looked at when there are roots above. -/
theorem RaiseCase.grows {res : Bool × State} (hr : RaiseCase C s t res) (hC : C.Succeeds)
    (h : Shape s) :
    res.1 = true ∧ Grows s res.2 ∧ (∀ u, u ≠ t → res.2.root u = s.root u) ∧
      (res.2.root t = 0 → s.root t = 0 ∧ s.next t = 0) ∧
      ∀ E ⊆ s.live, (Whole res.2 E ↔
        Whole s E ∧ ¬ (s.root t = 0 ∧ s.next t ≠ 0 ∧ ∃ u < t, s.root u ≠ 0)) := by
  cases hr with
  | idle hidle =>
    refine ⟨rfl, Grows.refl h, fun _ _ => rfl, ?_, ?_⟩
    · intro ht
      exact ⟨ht, hidle.resolve_left fun hne => hne ht⟩
    · intro E _
      constructor
      · refine fun hw => ⟨hw, ?_⟩
        rintro ⟨ht, hnext, -⟩
        rcases hidle with hne | hz
        · exact hne ht
        · exact hnext hz
      · exact fun hw => hw.1
  | failed _ _ hpick => exact absurd hpick (hC _ _)
  | @planted a s₁ s' ht hnext _ hf hp =>
    have hroot : ∀ u, s₁.root u = s.root u := hf.root
    have hnext₁ : s₁.next t ≠ 0 := by
      have heq : s₁.next t = s.next t := by
        fin_cases t
        · exact hroot 1
        · exact hroot 2
        · exact hroot 3
        · rfl
      rwa [heq]
    obtain ⟨hg, hw⟩ := hf.plant h (Grows.refl (hf.shape h)) hp (by rw [hroot, ht])
      (fun hz => absurd hz hnext₁)
    refine ⟨rfl, hg, ?_, ?_, ?_⟩
    · intro u hu
      rw [hp.root, if_neg hu, hroot]
    · intro ht'
      rw [hp.root, if_pos rfl] at ht'
      exact absurd ht' hf.ne
    · intro E hE
      rw [hw E hE, hf.whole_iff h]
      simp only [hroot, ht, hnext, ne_eq, not_false_eq_true, true_and]

/-- The steps before a new `root_l<t>` is put in place leave a node out. -/
def RaiseLeaks (s : State) (t : Fin 4) : Prop :=
  t ≤ 1 ∧ s.root 2 = 0 ∧ s.root 3 ≠ 0 ∧ ∃ u < 2, s.root u ≠ 0

theorem raises_grows (hC : C.Succeeds) (h : Shape s) (ht : s.root t = 0) :
    ∃ s', raises C s t = (true, s') ∧ Grows s s' ∧ (∀ u, u ≤ t → s'.root u = s.root u) ∧
      (s'.next t = 0 → ∀ q, t < q → s'.root q = 0) ∧
      ∀ E ⊆ s.live, (Whole s' E ↔ Whole s E ∧ ¬ RaiseLeaks s t) := by
  have hraise := (raiseL2_cases C s).grows hC h
  obtain ⟨⟨ok, s₂⟩, hs₂⟩ : ∃ r, raiseL2 C s = r := ⟨_, rfl⟩
  rw [hs₂] at hraise
  obtain ⟨hok, hg, hroot, hroot2, hw⟩ := hraise
  simp only at hok hg hroot hroot2 hw
  subst hok
  have h3 : s₂.root 3 = s.root 3 := hroot 3 (by decide)
  have h23 : s₂.root 2 = 0 → s₂.root 3 = 0 := by
    intro h2
    rw [h3]
    exact (hroot2 h2).2
  have hidle : ∀ t : Fin 4, 2 ≤ t → (s.next t = 0 → ∀ q, t < q → s.root q = 0) ∧
      ∀ E ⊆ s.live, (Whole s E ↔ Whole s E ∧ ¬ RaiseLeaks s t) := by
    intro t ht2
    refine ⟨?_, ?_⟩
    · intro hnext q hq
      have hq3 : q = 3 := by
        rw [Fin.le_def] at ht2
        rw [Fin.lt_def] at hq
        exact Fin.ext (show q.val = 3 by have := q.isLt; omega)
      subst hq3
      have ht3 : t = 2 := le_antisymm (Fin.le_def.mpr (Nat.le_of_lt_succ hq)) ht2
      rw [ht3] at hnext
      exact hnext
    · intro E _
      refine ⟨fun hw => ⟨hw, fun hl => ?_⟩, fun hw => hw.1⟩
      exact absurd (ht2.trans hl.1) (by decide)
  fin_cases t
  · -- `root_l2`, then `root_l1`
    have hraise' := (raiseL1_cases C s₂).grows hC hg.shape
    obtain ⟨⟨ok, s₃⟩, hs₃⟩ : ∃ r, raiseL1 C s₂ = r := ⟨_, rfl⟩
    rw [hs₃] at hraise'
    obtain ⟨hok, hg', hroot', hroot1, hw'⟩ := hraise'
    simp only at hok hg' hroot' hroot1 hw'
    subst hok
    have h0 : s₂.root 0 = 0 := (hroot 0 (by decide)).trans ht
    refine ⟨s₃, by simp only [raises, hs₂, hs₃], hg.trans hg', ?_, ?_, ?_⟩
    · intro u hu
      have hu0 : u = 0 := le_antisymm hu (Fin.zero_le u)
      rw [hu0, hroot' 0 (by decide), hroot 0 (by decide)]
    · intro hnext q hq
      obtain ⟨h1, h2⟩ := hroot1 hnext
      by_cases hq1 : q = 1
      · rw [hq1]
        exact hnext
      · rw [hroot' q hq1]
        have hq23 : q = 2 ∨ q = 3 := by
          have hval : q.val ≠ 1 := fun e => hq1 (Fin.ext e)
          rw [Fin.lt_def] at hq
          have hlt := q.isLt
          have hcase : q.val = 2 ∨ q.val = 3 := by
            change 0 < q.val at hq
            omega
          exact hcase.imp (fun e => Fin.ext e) fun e => Fin.ext e
        rcases hq23 with rfl | rfl
        · exact h2
        · exact h23 h2
    · intro E hE
      rw [hw' E (hE.trans hg.kept.live), hw E hE]
      have hno : ¬ (s₂.root 1 = 0 ∧ s₂.next 1 ≠ 0 ∧ ∃ u < 1, s₂.root u ≠ 0) := by
        rintro ⟨-, -, u, hu, hne⟩
        have hu0 : u = 0 := Fin.lt_one_iff u |>.mp hu
        exact hne (hu0 ▸ h0)
      have hle : (0 : Fin 4) ≤ 1 := by decide
      simp only [hno, not_false_eq_true, and_true]
      exact and_congr_right fun _ => not_congr
        ⟨fun hl => ⟨hle, hl⟩, fun hl => hl.2⟩
  · refine ⟨s₂, hs₂, hg, ?_, ?_, ?_⟩
    · intro u hu
      exact hroot u (ne_of_lt (lt_of_le_of_lt hu (by decide)))
    · intro hnext q hq
      have hq23 : q = 2 ∨ q = 3 := by
        rw [Fin.lt_def] at hq
        have hlt := q.isLt
        have hcase : q.val = 2 ∨ q.val = 3 := by
          change 1 < q.val at hq
          omega
        exact hcase.imp (fun e => Fin.ext e) fun e => Fin.ext e
      rcases hq23 with rfl | rfl
      · exact hnext
      · exact h23 hnext
    · intro E hE
      rw [hw E hE]
      exact and_congr_right fun _ => not_congr
        ⟨fun hl => ⟨le_refl _, hl⟩, fun hl => hl.2⟩
  · obtain ⟨hnext, hE⟩ := hidle 2 (by decide)
    exact ⟨s, rfl, Grows.refl h, fun _ _ => rfl, hnext, hE⟩
  · obtain ⟨hnext, hE⟩ := hidle 3 (by decide)
    exact ⟨s, rfl, Grows.refl h, fun _ _ => rfl, hnext, hE⟩

/-- The root from which the walk starts. -/
theorem TopCase.grows {res : Ptr × State} (hr : TopCase C s t res) (hC : C.Succeeds)
    (h : Shape s) :
    Reaches res.2 t.val res.1 ∧ Grows s res.2 ∧ (Whole res.2 ∅ ↔
      Whole s ∅ ∧ ¬ (s.root t = 0 ∧ ((∃ u < t, s.root u ≠ 0) ∨ RaiseLeaks s t))) := by
  cases hr with
  | present ht =>
    refine ⟨.root t ht, Grows.refl h, fun hw => ⟨hw, fun hl => ht hl.1⟩, fun hw => hw.1⟩
  | failed _ hpick => exact absurd hpick (hC _ _)
  | @lost a s₁ s₂ ht _ hf hraise =>
    obtain ⟨s', hraise', -⟩ := raises_grows hC (hf.shape h) (by rw [hf.root, ht])
    rw [hraise'] at hraise
    simp at hraise
  | @planted a s₁ s₂ s' ht _ hf hraise hp =>
    obtain ⟨s₂', hraise', hg, hroot, hnext, hw⟩ :=
      raises_grows hC (hf.shape h) (t := t) (by rw [hf.root, ht])
    rw [hraise, Prod.mk.injEq] at hraise'
    obtain ⟨-, rfl⟩ := hraise'
    have ht₂ : s₂.root t = 0 := by rw [hroot t (le_refl t), hf.root, ht]
    obtain ⟨hg', hw'⟩ := hf.plant h hg hp ht₂ hnext
    have hself : s'.root t = a := by rw [hp.root, if_pos rfl]
    refine ⟨?_, hg', ?_⟩
    · rw [← hself]
      exact .root t (hself ▸ hf.ne)
    · have hE : insert a ∅ ⊆ s₁.live := by
        rw [hf.live]
        exact Finset.insert_subset_insert a (Finset.empty_subset s.live)
      have habove : (∃ u < t, s₂.root u ≠ 0) ↔ ∃ u < t, s.root u ≠ 0 := by
        constructor
        · rintro ⟨u, hu, hne⟩
          refine ⟨u, hu, ?_⟩
          rwa [hroot u hu.le, hf.root] at hne
        · rintro ⟨u, hu, hne⟩
          refine ⟨u, hu, ?_⟩
          rwa [hroot u hu.le, hf.root]
      have hleak : RaiseLeaks s₁ t ↔ RaiseLeaks s t := by
        unfold RaiseLeaks
        simp only [hf.root]
      rw [hw' ∅ (Finset.empty_subset s.live), hw _ hE, hf.whole_iff h, habove, hleak]
      simp only [ht, true_and, not_or]
      tauto

/-- The node of the next level. -/
theorem ChildCase.grows {u : Fin 4} {res : Ptr × State}
    (hr : ChildCase C s (fun s a => s.setRoot u a) n k res) (hC : C.Succeeds) (h : Shape s)
    (hn : Reaches s r n) (hu : u.val = r + 1) :
    Reaches res.2 u.val res.1 ∧ Grows s res.2 ∧ (Whole res.2 ∅ ↔ Whole s ∅) := by
  have hr3 : r < 3 := by
    have := u.isLt
    omega
  cases hr with
  | present hk =>
    refine ⟨?_, Grows.refl h, Iff.rfl⟩
    rw [hu]
    exact .slot k hn hr3 hk
  | failed _ hpick => exact absurd hpick (hC _ _)
  | @hung a s₁ s₂ hk _ hf hh =>
    have hn₁ : Reaches s₁ r n := (hf.reaches_iff h).mpr hn
    have hk₁ : s₁.slot n k = 0 := by
      rw [hf.slot, hk, ite_self]
    have ha := hf.loose h
    have hgains := hh.gains (hf.shape h) hn₁ hr3 hk₁ ha
    have hshape := hh.shape (hf.shape h) hn₁ hr3 hk₁ ha
    have hreach : Reaches s₂ u.val a := (hgains u.val a).mpr (.inr ⟨hu, rfl⟩)
    have hcount : ∀ x, treeCount s₂ x =
        treeCount s₁ x + if a = x then treeCount s₁ n else 0 := by
      intro x
      rw [hh.treeCount_eq (hf.shape h) hn₁ hr3 hk₁ ha]
      simp only [eq_comm]
    have hlose : ∀ b, Loose s b → Loose s₂ b := by
      intro b hb
      obtain ⟨hb₁, hba⟩ := hf.keep_loose h hb
      apply hgains.keep_loose hh.live hb₁ hba
      intro j
      rw [hh.slot, if_neg]
      rintro ⟨rfl, -⟩
      exact hb₁.unreached r hn₁
    have hg : Grows s s₂ :=
      ⟨hshape, kept_of_count hh.live hcount (hf.kept h) hf.new, hlose⟩
    have hw : Whole s₂ ∅ ↔ Whole s ∅ := by
      rw [whole_iff_of_count hh.live ha (Finset.notMem_empty a) hcount, hf.whole_iff h]
      refine ⟨fun hw => hw.1, fun hw => ⟨hw, ?_⟩⟩
      have hn_live : n ∈ s.live := h.live r n hn
      rw [(hf.kept h).count n hn_live]
      exact hw n hn_live (Finset.notMem_empty n)
    by_cases hk0 : k = 0
    · -- the shortcut root is moved, below the highest root
      rw [if_pos hk0]
      obtain ⟨t, htr, ht⟩ := ((hgains r n).mpr (.inl hn₁)).exists_root
      have hsame : ∀ x, treeCount (s₂.setRoot u a) x = treeCount s₂ x := by
        intro x
        apply treeCount_congr
        · intro v hv
          rw [root_setRoot, if_neg]
          rintro rfl
          exact ht (hv t (by rw [Fin.lt_def]; omega))
        · exact fun q m j _ _ => slot_setRoot s₂ u a m j
      refine ⟨?_, hg.trans ⟨hshape.setRoot hreach, ?_, ?_⟩, ?_⟩
      · have hself : (s₂.setRoot u a).root u = a := by rw [root_setRoot, if_pos rfl]
        have hroot : Reaches (s₂.setRoot u a) u.val ((s₂.setRoot u a).root u) :=
          .root u (by rw [hself]; exact hf.ne)
        rwa [hself] at hroot
      · exact ⟨by rw [live_setRoot], fun x _ => hsame x⟩
      · intro b hb
        refine ⟨hb.ne, by rw [live_setRoot]; exact hb.live, fun j => ?_, fun q hq => ?_⟩
        · rw [slot_setRoot, hb.empty]
        · exact hb.unreached q (reaches_setRoot_subset hreach q b hq)
      · rw [← hw]
        simp only [Whole, live_setRoot, hsame]
    · rw [if_neg hk0]
      exact ⟨hreach, hg, hw⟩

/-- The value is stored. -/
theorem setLeaf_grows (h : Shape s) (hn : Reaches s 3 n) (v : Ptr) :
    Shape (s.setSlot n k v) ∧ (Whole (s.setSlot n k v) ∅ ↔ Whole s ∅) := by
  refine ⟨h.setLeaf hn v, ?_⟩
  have hsame : ∀ x, treeCount (s.setSlot n k v) x = treeCount s x := by
    intro x
    apply treeCount_congr fun t _ => root_setSlot s n k v t
    intro q m j hm hq
    rw [slot_setSlot, if_neg]
    rintro ⟨rfl, -⟩
    have := h.level q 3 m hm hn
    omega
  simp only [Whole, live_setSlot, hsame]

/-- A call leaks when its root is created and something is left out. -/
theorem leaks_iff (s : State) (i : UInt32) :
    Leaks s i ↔ s.root (slices i).1 = 0 ∧
      ((∃ u < (slices i).1, s.root u ≠ 0) ∨ RaiseLeaks s (slices i).1) := by
  unfold Leaks
  generalize (slices i).1 = t
  constructor
  · rintro (⟨ht, habove⟩ | ⟨rfl, h0, h1, h2, h3⟩)
    · exact ⟨ht, .inl habove⟩
    · exact ⟨h0, .inr ⟨by decide, h2, h3, 1, by decide, h1⟩⟩
  · rintro ⟨ht, habove | ⟨ht1, h2, h3, u, hu, hne⟩⟩
    · exact .inl ⟨ht, habove⟩
    · rcases lt_trichotomy u t with hlt | rfl | hgt
      · exact .inl ⟨ht, u, hlt, hne⟩
      · exact absurd ht hne
      · -- the root above `root_l2` is that of the next level
        have hu1 : u = 1 := by
          rw [Fin.lt_def] at hgt
          have hu2 : u.val < 2 := hu
          exact Fin.ext (show u.val = 1 by omega)
        subst hu1
        have ht0 : t = 0 := Fin.lt_one_iff t |>.mp hgt
        subst ht0
        exact .inr ⟨rfl, ht, hne, h2, h3⟩

/-- The way down: each node hangs on the one before. -/
theorem descend_grows (hC : C.Succeeds) (path : List (Fin radixSlots)) (h : Shape s)
    (hn : Reaches s r n) (hr : r + path.length ≤ 3) :
    Reaches (descend C r s n path).2 (r + path.length) (descend C r s n path).1 ∧
      Shape (descend C r s n path).2 ∧ (Whole (descend C r s n path).2 ∅ ↔ Whole s ∅) := by
  induction path generalizing r s n with
  | nil => exact ⟨hn, h, Iff.rfl⟩
  | cons k path ih =>
    rw [List.length_cons] at hr ⊢
    have hu : (Fin.ofNat 4 (r + 1)).val = r + 1 := Nat.mod_eq_of_lt (by omega)
    obtain ⟨hm, hg, hw⟩ :=
      (child_cases (fun s a => s.setRoot (Fin.ofNat 4 (r + 1)) a) C s n k).grows hC h hn hu
    rw [hu] at hm
    obtain ⟨hn3, hshape, hw'⟩ := ih hg.shape hm (by omega)
    simp only [descend, hm.ne, if_false]
    rw [show r + (path.length + 1) = r + 1 + path.length by omega]
    exact ⟨hn3, hshape, hw'.trans hw⟩

/-- The step lemma of `radix_set`. -/
theorem radixSet_grows (hC : C.Succeeds) (h : Shape s) (i : UInt32) (v : Ptr) :
    Shape (radixSet C s i v).2 ∧
      (Whole (radixSet C s i v).2 ∅ ↔ Whole s ∅ ∧ ¬ Leaks s i) := by
  obtain ⟨hn, hg, hw⟩ := (topNode_cases C s (slices i).1).grows hC h
  have hlen : (slices i).1.val + (slices i).2.length = 3 := by
    rw [Nat.add_comm]
    exact slices_length i
  obtain ⟨hn3, hshape, hw'⟩ := descend_grows hC (slices i).2 hg.shape hn hlen.le
  rw [hlen] at hn3
  obtain ⟨hshape', hw''⟩ := setLeaf_grows (k := l3 i) hshape hn3 v
  rw [leaks_iff, radixSet_eq_descend]
  simp only [hn.ne, hn3.ne, if_false]
  exact ⟨hshape', hw''.trans (hw'.trans hw)⟩

end

/-! ## Runs -/

/-- No call of the sequence leaks, the one after the other from `s`. -/
def NoLeaks (C : Calloc) : State → List (UInt32 × Ptr) → Prop
  | _, [] => True
  | s, op :: ops => ¬ Leaks s op.1 ∧ NoLeaks C (radixSet C s op.1 op.2).2 ops

instance NoLeaks.decidable (C : Calloc) :
    (s : State) → (ops : List (UInt32 × Ptr)) → Decidable (NoLeaks C s ops)
  | _, [] => inferInstanceAs (Decidable True)
  | s, op :: ops =>
    have : Decidable (NoLeaks C (radixSet C s op.1 op.2).2 ops) := NoLeaks.decidable C _ ops
    inferInstanceAs (Decidable (_ ∧ _))

/-- The tree has a leaf that no root of a higher level leads to. -/
def OnlyL3 (s : State) : Prop := s.rootL0 = 0 ∧ s.rootL1 = 0 ∧ s.rootL2 = 0 ∧ s.rootL3 ≠ 0

instance (s : State) : Decidable (OnlyL3 s) := inferInstanceAs (Decidable (_ ∧ _))

section
variable {C : Calloc} {s : State}

/-- The run lemma: every node is below the highest root while no call leaks. -/
theorem runSets_whole (hC : C.Succeeds) (ops : List (UInt32 × Ptr)) (h : Shape s) :
    Shape (runSets C s ops) ∧ (Whole (runSets C s ops) ∅ ↔ Whole s ∅ ∧ NoLeaks C s ops) := by
  induction ops generalizing s with
  | nil => exact ⟨h, fun hw => ⟨hw, trivial⟩, fun hw => hw.1⟩
  | cons op ops ih =>
    obtain ⟨hshape, hstep⟩ := radixSet_grows hC h op.1 op.2
    obtain ⟨hshape', hrun⟩ := ih hshape
    refine ⟨hshape', hrun.trans ?_⟩
    rw [hstep, NoLeaks, and_assoc]

/-- `radix_destroy` is right when every node is below the highest root and that is not
`root_l3`. -/
theorem freesOnce_iff (h : Shape s) : FreesOnce s ↔ Whole s ∅ ∧ ¬ OnlyL3 s := by
  have hcases : ¬ OnlyL3 s ↔ s.rootL0 ≠ 0 ∨ s.rootL1 ≠ 0 ∨ s.rootL2 ≠ 0 ∨ s.rootL3 = 0 := by
    unfold OnlyL3
    tauto
  constructor
  · intro hfree
    have honly : ¬ OnlyL3 s := by
      rintro ⟨h0, h1, h2, h3⟩
      have hmem : s.rootL3 ∈ s.live := h.live 3 _ (.root 3 h3)
      have hcount := hfree.node s.rootL3
      rw [if_pos hmem] at hcount
      simp [radixDestroy, h0, h1, h2] at hcount
    refine ⟨?_, honly⟩
    intro x hx _
    rw [← count_node (hcases.mp honly), hfree.node x, if_pos hx]
  · rintro ⟨hw, honly⟩
    refine ⟨?_, count_radix s⟩
    intro a
    rw [count_node (hcases.mp honly)]
    by_cases ha : a ∈ s.live
    · rw [if_pos ha]
      exact hw a ha (Finset.notMem_empty a)
    · rw [if_neg ha]
      by_contra hne
      obtain ⟨q, hq⟩ := treeCount_reaches hne
      exact ha (h.live q a hq)

end

/-- `radix_destroy` frees every node that the calls of `radix_set` allocated, each once,
exactly when no call created a node that is not below the highest root and the tree has
not `root_l3` alone. -/
theorem radixDestroy_freesOnce_iff {C : Calloc} (hC : C.Succeeds)
    (ops : List (UInt32 × Ptr)) :
    FreesOnce (runSets C radixCreate ops) ↔
      NoLeaks C radixCreate ops ∧ ¬ OnlyL3 (runSets C radixCreate ops) := by
  obtain ⟨hshape, hrun⟩ := runSets_whole hC ops shape_create
  have hcreate : Whole radixCreate ∅ := fun x hx => absurd hx (Finset.notMem_empty x)
  rw [freesOnce_iff hshape, hrun]
  simp only [hcreate, true_and]

/-- A tree that grew from the leaves up. -/
theorem radixDestroy_freesOnce_iff_grown :
    FreesOnce (runSets Calloc.bump radixCreate [(5, 1), (0x100, 2), (0x10000, 3)]) := by
  apply (radixDestroy_freesOnce_iff Calloc.bump_succeeds
    [(5, 1), (0x100, 2), (0x10000, 3)]).mpr
  decide +kernel

/-- After `radix_set(rx, 5, 1)` alone the leaf is not freed.  After `radix_set(rx, 0x100, 1)`
and `radix_set(rx, 5, 1)` it is not either. -/
theorem radix_destroy_leaves_leaf :
    ¬ FreesOnce (runSets Calloc.bump radixCreate [(5, 1)]) ∧
      ¬ FreesOnce (runSets Calloc.bump radixCreate [(0x100, 1), (5, 1)]) := by
  constructor
  · intro h
    have hcount := h.node 1
    revert hcount
    decide +kernel
  · intro h
    have hcount := h.node 3
    revert hcount
    decide +kernel

end Ko6.Common.Radix
