import Ko6.Common.RadixForeach
import Ko6.Common.RadixNodes

set_option autoImplicit false

/-!
# Common: what a cleanup of the radix tree leaves

`radix_cleanup` starts from the highest root only and knows of each node the pointer it
came by, and of a node whose path is all zero the shortcut root of its level.  So it
frees every empty node and leaves no pointer behind while the roots are linked.  A root
that is not below the highest one is never looked at, and a shortcut root that stands
for a node of another path keeps its pointer when that node is freed.
-/

namespace Ko6.Common.Radix

/-- The place `c` is the one at slot `k` of the place `P`. -/
inductive Above : Place → Fin radixSlots → Place → Prop where
  | root (r q : Fin 4) : q.val = r.val + 1 → Above (Place.root r) 0 (Place.root q)
  | snoc (P : Place) (k : Fin radixSlots) (hP : ¬ P.IsLeaf) (hk : k ≠ 0) :
      Above P k (P.snoc k hP hk)

/-- The place `Q` is in the subtree of `P`. -/
def Under (P Q : Place) : Prop := Relation.ReflTransGen (fun P c => ∃ k, Above P k c) P Q

/-- The node at `P`, if there is one, has an occupied slot. -/
def Full (s : State) (P : Place) : Prop :=
  s.addr P ≠ 0 → ∃ k, s.slot (s.addr P) k ≠ 0

/-- Nodes may have been taken out of the tree; those that were are freed. -/
structure Shrunk (s s' : State) : Prop where
  live : s'.live ⊆ s.live
  addr : ∀ Q, s'.addr Q = s.addr Q ∨ (s'.addr Q = 0 ∧ s.addr Q ∉ s'.live)

/-- The subtree of `P` has no empty node any more, and above `P` only the node that
points to it may have become one. -/
structure Trimmed (s : State) (P : Place) (s' : State) : Prop where
  kept : ∀ Q, (∀ k, ¬ Above Q k P) → Full s Q → Full s' Q
  full : ∀ Q, Under P Q → Full s' Q
  shrunk : Shrunk s s'

section
variable {s s' s'' : State} {P Q c : Place} {k : Fin radixSlots} {n : Ptr} {r index : Nat}
  {pnode : PNode}

theorem Shrunk.refl (s : State) : Shrunk s s := ⟨Finset.Subset.refl _, fun _ => .inl rfl⟩

theorem Shrunk.trans (h : Shrunk s s') (h' : Shrunk s' s'') : Shrunk s s'' := by
  refine ⟨h'.live.trans h.live, ?_⟩
  intro Q
  rcases h.addr Q with heq | ⟨hz, hfreed⟩
  · rw [← heq]
    exact h'.addr Q
  · have hgone : s.addr Q ∉ s''.live := fun hmem => hfreed (h'.live hmem)
    rcases h'.addr Q with heq' | ⟨hz', -⟩
    · exact .inr ⟨heq'.trans hz, hgone⟩
    · exact .inr ⟨hz', hgone⟩

/-! ## Places below a place -/

theorem Above.rank_eq (h : Above P k c) : c.rank = P.rank + 1 := by
  cases h with
  | root r q hq => rw [Place.rank_root, Place.rank_root, hq]
  | snoc _ _ hP hk => exact Place.rank_snoc P k hP hk

theorem Above.parent_eq {j : Fin radixSlots} (h : Above P k c) (h' : Above Q j c) :
    P = Q ∧ k = j := by
  generalize hd : c = d at h'
  cases h with
  | root r q hq =>
    cases h' with
    | root r' q' hq' =>
      have hqq := Place.root_inj hd
      subst hqq
      have hrr : r = r' := Fin.ext (by omega)
      exact ⟨congrArg Place.root hrr, rfl⟩
    | snoc _ _ hQ hj => exact absurd hd.symm (Place.snoc_ne_root q)
  | snoc _ _ hP hk =>
    cases h' with
    | root r' q' hq' => exact absurd hd (Place.snoc_ne_root q')
    | snoc _ _ hQ hj => exact Place.snoc_inj.mp hd

/-- The pointer to a place is that of its slot. -/
theorem Above.addr_eq (hl : Linked s) (hne : s.addr P ≠ 0) (h : Above P k c) :
    s.addr c = s.slot (s.addr P) k := by
  cases h with
  | root r q hq => exact (hl.link r q hq hne).symm
  | snoc _ _ hP hk => exact addr_snoc s P k hP hk

/-- An occupied slot of a node that is not a leaf has a place. -/
theorem exists_above (h : Separated s) (hP : ¬ P.IsLeaf) (hk : s.slot (s.addr P) k ≠ 0) :
    ∃ c, Above P k c := by
  by_cases hk0 : k = 0
  · subst hk0
    obtain ⟨-, hroot, hlt⟩ := h.root_of_slot_zero hP hk
    rw [hroot]
    exact ⟨_, .root P.level ⟨P.level.val + 1, hlt⟩ rfl⟩
  · exact ⟨_, .snoc P k hP hk0⟩

theorem Under.rank_le (h : Under P Q) : P.rank ≤ Q.rank := by
  induction h with
  | refl => exact Nat.le_refl _
  | tail _ hstep ih =>
    obtain ⟨k, hstep⟩ := hstep
    have := hstep.rank_eq
    omega

/-- Below an empty slot there is nothing: the roots are without gap. -/
theorem Under.addr_eq_zero (h : Separated s) (hl : Linked s) (hne : s.addr P ≠ 0)
    (hc : Above P k c) (hk : s.slot (s.addr P) k = 0) (hQ : Under c Q) : s.addr Q = 0 := by
  suffices hboth : s.addr Q = 0 ∧ ∀ q, Q = Place.root q → ∃ p < q, s.root p ≠ 0 from hboth.1
  induction hQ with
  | refl =>
    refine ⟨(hc.addr_eq hl hne).trans hk, ?_⟩
    rintro q rfl
    generalize hd : Place.root q = d at hc
    cases hc with
    | root p q' hq =>
      have hqq := Place.root_inj hd
      subst hqq
      exact ⟨p, by rw [Fin.lt_def]; omega, hne⟩
    | snoc _ _ hP hk => exact absurd hd.symm (Place.snoc_ne_root q)
  | tail _ hstep ih =>
    obtain ⟨j, hstep⟩ := hstep
    obtain ⟨hzero, hroot⟩ := ih
    cases hstep with
    | root r q hq =>
      obtain ⟨p, hpr, hp⟩ := hroot r rfl
      have hrq : r < q := by rw [Fin.lt_def]; omega
      refine ⟨hl.gapless p r q hpr hrq hp hzero, ?_⟩
      intro q' hqq
      rw [← Place.root_inj hqq]
      exact ⟨p, hpr.trans hrq, hp⟩
    | snoc _ _ hQ hj =>
      refine ⟨?_, fun q hq => absurd hq (Place.snoc_ne_root q)⟩
      rw [addr_snoc, hzero, h.null]

/-! ## One node is freed -/

theorem freeNode_slot (s : State) (pnode : PNode) (level index : Nat) (m : Ptr)
    (k : Fin radixSlots) :
    (freeNode s pnode level index).slot m k =
      match pnode with
      | .root _ => s.slot m k
      | .slot n j => if m = n ∧ k = j then 0 else s.slot m k := by
  have hstore : (freeNode s pnode level index).slot m k =
      (({ s with live := s.live.erase (s.load pnode) } : State).store 0 pnode).slot m k := by
    unfold freeNode
    by_cases hindex : index = 0
    · rw [if_pos hindex]
      split <;> rfl
    · rw [if_neg hindex]
  rw [hstore]
  cases pnode with
  | root t => exact slot_setRoot _ t 0 m k
  | slot n j => exact slot_setSlot _ n m j k 0

/-- Freeing the node at `P` writes into no node but the one above. -/
theorem freeNode_slot_eq (h : Separated s) (hpnode : Hangs s pnode P) (level : Nat)
    (hQ : ∀ k, ¬ Above Q k P) (hne : s.addr Q ≠ 0) (k : Fin radixSlots) :
    (freeNode s pnode level index).slot (s.addr Q) k = s.slot (s.addr Q) k := by
  rw [freeNode_slot]
  cases hpnode with
  | top t habove => rfl
  | under t q hq ht =>
    simp only
    rw [if_neg]
    rintro ⟨heq, -⟩
    have hQt : Q = Place.root t := h.inj Q (Place.root t) hne heq
    exact hQ 0 (hQt ▸ .root t q hq)
  | child R j hR hj hne' =>
    simp only
    rw [if_neg]
    rintro ⟨heq, -⟩
    have hQR : Q = R := h.inj Q R hne heq
    exact hQ j (hQR ▸ .snoc R j hR hj)

theorem freeNode_live (h : Hangs s pnode P) (hl : Linked s) (level index : Nat) :
    (freeNode s pnode level index).live = s.live.erase (s.addr P) := by
  rw [← h.load_eq hl]
  unfold freeNode
  split
  · split <;> cases pnode <;> simp [State.store]
  · cases pnode <;> simp [State.store]

theorem freeNode_trimmed (h : Separated s) (hl : Linked s) (hpnode : Hangs s pnode P)
    (hne : s.addr P ≠ 0) (hempty : ∀ k, s.slot (s.addr P) k = 0)
    (hindex : index = 0 ↔ P.path = []) : Trimmed s P (freeNode s pnode P.rank index) := by
  obtain ⟨hc, hother⟩ := freeNode_spec h hl hpnode hne hempty hindex
  have hlive := freeNode_live hpnode hl P.rank index
  have hhere : (freeNode s pnode P.rank index).addr P = 0 := by
    rcases hc.here with heq | heq
    · -- the address of a freed node would not be allocated
      by_contra hne'
      have hmem := hc.sep.live P hne'
      rw [heq, hlive] at hmem
      exact absurd rfl (Finset.ne_of_mem_erase hmem)
    · exact heq
  refine ⟨?_, ?_, ?_⟩
  · intro Q hQ hfull
    by_cases hQP : Q = P
    · rw [hQP]
      exact fun e => absurd hhere e
    · intro hne'
      rw [hother Q hQP] at hne' ⊢
      obtain ⟨k, hk⟩ := hfull hne'
      exact ⟨k, by rwa [freeNode_slot_eq h hpnode _ hQ hne']⟩
  · intro Q hQ
    rcases Relation.ReflTransGen.cases_head hQ with rfl | ⟨c, ⟨k, hPc⟩, hcQ⟩
    · exact fun e => absurd hhere e
    · have hzero := Under.addr_eq_zero h hl hne hPc (hempty k) hcQ
      have hQP : Q ≠ P := by
        rintro rfl
        exact hne hzero
      intro hne'
      rw [hother Q hQP, hzero] at hne'
      exact absurd rfl hne'
  · refine ⟨hlive ▸ Finset.erase_subset _ _, fun Q => ?_⟩
    by_cases hQP : Q = P
    · rw [hQP, hlive]
      exact .inr ⟨hhere, Finset.notMem_erase _ _⟩
    · exact .inl (hother Q hQP)

/-! ## The loop and the recursion -/

/-- The slot of a node that leads to another place than the one cleaned. -/
theorem Cleaned.slot_eq (hc : Cleaned s c s') (h : Separated s) (hl : Linked s)
    (hP : ¬ P.IsLeaf) (hne : s.addr P ≠ 0) (hPc : c.rank = P.rank + 1)
    (hk : s.slot (s.addr P) k ≠ 0) (hck : s.addr c ≠ s.slot (s.addr P) k) :
    s'.slot (s.addr P) k = s.slot (s.addr P) k := by
  obtain ⟨d, hd⟩ := exists_above h hP hk
  have hPP : s'.addr P = s.addr P := hc.addr P (by omega) (by rintro rfl; omega)
  have hdc : d ≠ c := by
    rintro rfl
    exact hck (hd.addr_eq hl hne)
  have hdd := hc.addr d (by rw [hd.rank_eq, hPc]) hdc
  have hne' : s'.addr P ≠ 0 := by rwa [hPP]
  rw [hd.addr_eq hl hne, hd.addr_eq hc.linked hne', hPP] at hdd
  exact hdd

/-- Two slots of one node do not hold the same pointer. -/
theorem slot_inj {j : Fin radixSlots} (h : Separated s) (hl : Linked s) (hP : ¬ P.IsLeaf)
    (hne : s.addr P ≠ 0) (hk : s.slot (s.addr P) k ≠ 0)
    (hkj : s.slot (s.addr P) k = s.slot (s.addr P) j) : k = j := by
  obtain ⟨c, hc⟩ := exists_above h hP hk
  obtain ⟨d, hd⟩ := exists_above h hP (hkj ▸ hk)
  have hcd : c = d := by
    apply h.inj c d
    · rwa [hc.addr_eq hl hne]
    · rw [hc.addr_eq hl hne, hd.addr_eq hl hne, hkj]
  exact (hc.parent_eq (hcd ▸ hd)).2

/-- The loop of `cleanup_node`: what was cleaned stays clean, and when `empty` is false
a slot is still occupied. -/
theorem sweep_trimmed (self : State → PNode → Nat → State)
    (hself : ∀ s pnode c index, c.rank = P.rank + 1 → Separated s → Linked s → s.addr c ≠ 0 →
      Hangs s pnode c → (index = 0 ↔ c.path = []) →
      Cleaned s c (self s pnode index) ∧ Trimmed s c (self s pnode index))
    (hP : ¬ P.IsLeaf) (hindex : index = 0 ↔ P.path = []) {n : Ptr} (hn : n ≠ 0) :
    ∀ (ks : List (Fin radixSlots)) (s : State) (empty : Bool) (s' : State) (empty' : Bool),
      ks.Nodup → Separated s → Linked s → s.addr P = n →
      ks.foldl (cleanupSlot self n index) (s, empty) = (s', empty') →
      (empty = false → ∃ j ∉ ks, s.slot n j ≠ 0) →
      (∀ Q, Q ≠ P → Full s Q → Full s' Q) ∧
        (∀ k ∈ ks, ∀ c, Above P k c → ∀ Q, Under c Q → Full s' Q) ∧
        (empty' = false → ∃ j, s'.slot n j ≠ 0) ∧ Shrunk s s' := by
  intro ks
  induction ks with
  | nil =>
    intro s empty s' empty' _ _ _ _ heq hempty
    rw [List.foldl_nil, Prod.mk.injEq] at heq
    obtain ⟨rfl, rfl⟩ := heq
    refine ⟨fun _ _ hQ => hQ, fun k hk => absurd hk List.not_mem_nil, fun he => ?_,
      Shrunk.refl s⟩
    obtain ⟨j, -, hj⟩ := hempty he
    exact ⟨j, hj⟩
  | cons k ks ih =>
    intro s empty s' empty' hnodup h hl hPn heq hempty
    obtain ⟨hkks, hnodup⟩ := List.nodup_cons.mp hnodup
    subst hPn
    rw [List.foldl_cons] at heq
    rcases cleanupSlot_cases self h hl hP hindex hn empty k with
      ⟨hk, hstep⟩ | ⟨c, s₁, hrank, haddr, hc0, hhangs, hci, hs₁, hstep⟩
    · rw [hstep] at heq
      obtain ⟨hkept, hfull, hend, hshrunk⟩ := ih s empty s' empty' hnodup h hl rfl heq fun he => by
        obtain ⟨j, hjk, hj⟩ := hempty he
        exact ⟨j, fun hm => hjk (List.mem_cons_of_mem k hm), hj⟩
      refine ⟨hkept, ?_, hend, hshrunk⟩
      intro j hj d hd Q hQ
      rcases List.mem_cons.mp hj with rfl | hj
      · -- below the empty slot there was nothing
        apply hkept
        · rintro rfl
          have := hd.rank_eq
          have := hQ.rank_le
          omega
        · exact fun hne => absurd (Under.addr_eq_zero h hl hn hd hk hQ) hne
      · exact hfull j hj d hd Q hQ
    · obtain ⟨hc, ht⟩ := hself s _ c (index <<< 8 ||| k.val) hrank h hl hc0 hhangs hci
      rw [← hs₁] at hc ht
      have hPP : s₁.addr P = s.addr P := hc.addr P (by omega) (by rintro rfl; omega)
      obtain ⟨d, hd⟩ := exists_above h hP (haddr ▸ hc0)
      have hcd : c = d := h.inj c d hc0 (haddr.trans (hd.addr_eq hl hn).symm)
      subst hcd
      rw [hstep] at heq
      obtain ⟨hkept, hfull, hend, hshrunk⟩ := ih s₁ _ s' empty' hnodup hc.sep hc.linked hPP heq fun he => by
        rw [Bool.and_eq_false_iff, decide_eq_false_iff_not] at he
        rcases he with he | he
        · obtain ⟨j, hjk, hj⟩ := hempty he
          refine ⟨j, fun hm => hjk (List.mem_cons_of_mem k hm), ?_⟩
          rw [hc.slot_eq h hl hP hn hrank hj]
          · exact hj
          · rw [haddr]
            intro hkj
            exact hjk (slot_inj h hl hP hn (haddr ▸ hc0) hkj ▸ List.mem_cons_self)
        · exact ⟨k, hkks, he⟩
      refine ⟨?_, ?_, hend, ht.shrunk.trans hshrunk⟩
      · intro Q hQP hQ
        apply hkept Q hQP (ht.kept Q _ hQ)
        exact fun j hj => hQP (hj.parent_eq hd).1
      · intro j hj e he Q hQ
        rcases List.mem_cons.mp hj with rfl | hj
        · have hec : e = c := by
            apply (h.inj c e hc0 _).symm
            rw [haddr, he.addr_eq hl hn]
          subst hec
          apply hkept
          · rintro rfl
            have := hQ.rank_le
            omega
          · exact ht.full Q hQ
        · exact hfull j hj e he Q hQ

/-- `cleanup_node` frees every node of its subtree that is left empty. -/
theorem cleanupNode_trimmed : ∀ (levels : Nat) (s : State) (pnode : PNode) (P : Place)
    (index : Nat), P.rank + levels = 3 → Separated s → Linked s → s.addr P ≠ 0 →
    Hangs s pnode P → (index = 0 ↔ P.path = []) →
    Trimmed s P (cleanupNode levels s pnode index) := by
  intro levels
  induction levels with
  | zero =>
    intro s pnode P index hrank h hl hne hhangs hindex
    unfold cleanupNode
    rw [hhangs.load_eq hl]
    by_cases hempty : ∀ i, s.slot (s.addr P) i = 0
    · rw [if_pos hempty, ← show P.rank = 3 from hrank]
      exact freeNode_trimmed h hl hhangs hne hempty hindex
    · rw [if_neg hempty]
      refine ⟨fun _ _ hQ => hQ, fun Q hQ => ?_, Shrunk.refl s⟩
      rcases Relation.ReflTransGen.cases_head hQ with rfl | ⟨c, ⟨k, hPc⟩, -⟩
      · intro _
        simpa using hempty
      · -- a leaf has no place below it
        have hlt := hPc.rank_eq
        have hle : c.rank ≤ 3 := c.depth
        omega
  | succ levels ih =>
    intro s pnode P index hrank h hl hne hhangs hindex
    have hP : ¬ P.IsLeaf := Place.not_isLeaf (by omega)
    have hself : ∀ s pnode c index, c.rank = P.rank + 1 → Separated s → Linked s →
        s.addr c ≠ 0 → Hangs s pnode c → (index = 0 ↔ c.path = []) →
        Cleaned s c (cleanupNode levels s pnode index) ∧
          Trimmed s c (cleanupNode levels s pnode index) := by
      intro s pnode c index hc h hl hne hhangs hindex
      exact ⟨cleanupNode_spec levels s pnode c index (by omega) h hl hne hhangs hindex,
        ih s pnode c index (by omega) h hl hne hhangs hindex⟩
    obtain ⟨s', empty, heq, hs, hempty⟩ := sweep_spec (cleanupNode levels)
      (fun s pnode c index hc h hl hne hh hi => (hself s pnode c index hc h hl hne hh hi).1)
      hP hindex hne (List.finRange radixSlots) s true h hl rfl
    obtain ⟨hkept, hfull, hend, hshrunk⟩ := sweep_trimmed (cleanupNode levels) hself hP hindex hne
      (List.finRange radixSlots) s true s' empty (List.nodup_finRange radixSlots) h hl rfl heq
      (fun he => absurd he (by decide))
    have haddr : s'.addr P = s.addr P := hs.addr P (Nat.le_refl _)
    unfold cleanupNode
    rw [hhangs.load_eq hl, cleanupSlots, heq]
    cases empty with
    | false =>
      have hkeep : cleanupEnd pnode (2 - levels) index (s', false) = s' := rfl
      rw [hkeep]
      refine ⟨?_, ?_, hshrunk⟩
      · intro Q hQ hQfull
        by_cases hQP : Q = P
        · rw [hQP]
          intro _
          rw [haddr]
          exact hend rfl
        · exact hkept Q hQP hQfull
      · intro Q hQ
        rcases Relation.ReflTransGen.cases_head hQ with rfl | ⟨c, ⟨k, hPc⟩, hcQ⟩
        · intro _
          rw [haddr]
          exact hend rfl
        · exact hfull k (List.mem_finRange k) c hPc Q hcQ
    | true =>
      have hall := (hempty rfl).2
      have htrim := freeNode_trimmed hs.sep hs.linked (hhangs.swept hs) (by rwa [haddr])
        (fun k => by rw [haddr]; exact hall k (List.mem_finRange k)) hindex
      rw [show P.rank = 2 - levels by omega] at htrim
      have hfree : cleanupEnd pnode (2 - levels) index (s', true) =
          freeNode s' pnode (2 - levels) index := rfl
      rw [hfree]
      refine ⟨?_, htrim.full, hshrunk.trans htrim.shrunk⟩
      intro Q hQ hQfull
      by_cases hQP : Q = P
      · rw [hQP]
        exact htrim.full P .refl
      · exact htrim.kept Q hQ (hkept Q hQP hQfull)

/-! ## The whole tree -/

/-- Every node that is reached stands at a place of its level. -/
theorem Reaches.exists_place (h : Separated s) (hl : Linked s) (hn : Reaches s r n) :
    ∃ P : Place, P.rank = r ∧ s.addr P = n := by
  induction hn with
  | root t _ => exact ⟨Place.root t, Place.rank_root t, addr_root s t⟩
  | slot k hm hr hk ih =>
    obtain ⟨P, rfl, rfl⟩ := ih
    have hP : ¬ P.IsLeaf := Place.not_isLeaf (by omega)
    obtain ⟨c, hc⟩ := exists_above h hP hk
    exact ⟨c, hc.rank_eq, hc.addr_eq hl hm.ne⟩

/-- Below the highest root is every place that has a node. -/
theorem under_top {t : Fin 4} (h : Separated s) (habove : ∀ q < t, s.root q = 0) (Q : Place)
    (hQ : s.addr Q ≠ 0) : Under (Place.root t) Q := by
  induction Q using Place.induct with
  | hroot q =>
    have htq : t ≤ q := by
      by_contra hlt
      exact hQ (habove q (not_le.mp hlt))
    -- from root to root, on the level
    obtain ⟨d, hd⟩ : ∃ d, q.val = t.val + d := Nat.exists_eq_add_of_le (Fin.le_def.mp htq)
    clear hQ htq
    induction d generalizing q with
    | zero =>
      have hqt : q = t := Fin.ext hd
      rw [hqt]
      exact .refl
    | succ d ih =>
      have hlt : t.val + d < 4 := by
        have := q.isLt
        omega
      exact .tail (ih ⟨t.val + d, hlt⟩ rfl) ⟨0, .root ⟨t.val + d, hlt⟩ q hd⟩
  | hsnoc P k hP hk ih =>
    have hne : s.addr P ≠ 0 := by
      intro e
      rw [addr_snoc, e, h.null] at hQ
      exact hQ rfl
    exact .tail (ih hne) ⟨k, .snoc P k hP hk⟩

/-- The step lemma: nothing empty is left by `radix_cleanup`, and what is gone is freed. -/
theorem radixCleanup_trimmed (h : Separated s) (hl : Linked s) :
    (∀ Q, Full (radixCleanup s) Q) ∧ Shrunk s (radixCleanup s) := by
  have htop : ∀ (t : Fin 4), s.root t ≠ 0 → (∀ q < t, s.root q = 0) →
      (∀ Q, Full (cleanupNode (3 - t.val) s (.root t) 0) Q) ∧
        Shrunk s (cleanupNode (3 - t.val) s (.root t) 0) := by
    intro t ht habove
    have hrank : (Place.root t).rank + (3 - t.val) = 3 := by
      rw [Place.rank_root]
      omega
    have hc := cleanupNode_spec (3 - t.val) s (.root t) (Place.root t) 0 hrank h hl ht
      (.top t habove) ⟨fun _ => rfl, fun _ => rfl⟩
    have htrim := cleanupNode_trimmed (3 - t.val) s (.root t) (Place.root t) 0 hrank h hl ht
      (.top t habove) ⟨fun _ => rfl, fun _ => rfl⟩
    have habove' : ∀ q < t, (cleanupNode (3 - t.val) s (.root t) 0).root q = 0 := by
      intro q hq
      have heq := hc.addr (Place.root q)
        (by rw [Place.rank_root, Place.rank_root]; exact Fin.le_def.mp hq.le)
        (fun e => hq.ne (Place.root_inj e))
      rw [addr_root, addr_root] at heq
      rw [heq, habove q hq]
    exact ⟨fun Q hQ => htrim.full Q (under_top hc.sep habove' Q hQ) hQ, htrim.shrunk⟩
  unfold radixCleanup
  split_ifs with h0 h1 h2 h3
  · exact htop 0 h0 fun q hq => absurd hq (Fin.not_lt_zero q)
  · refine htop 1 h1 fun q hq => ?_
    rw [roots_above_one q hq]
    exact not_not.mp h0
  · refine htop 2 h2 fun q hq => ?_
    rcases roots_above_two q hq with rfl | rfl
    · exact not_not.mp h0
    · exact not_not.mp h1
  · refine htop 3 h3 fun q hq => ?_
    rcases roots_above_three q hq with rfl | rfl | rfl
    · exact not_not.mp h0
    · exact not_not.mp h1
    · exact not_not.mp h2
  · refine ⟨fun Q hQ => ?_, Shrunk.refl s⟩
    have hall : ∀ t, s.root t = 0 := by
      intro t
      fin_cases t
      · exact not_not.mp h0
      · exact not_not.mp h1
      · exact not_not.mp h2
      · exact not_not.mp h3
    rw [State.addr, hall, walk_zero h.null] at hQ
    exact absurd rfl hQ

/-- In a tree that is separated and linked every node that is reached has one level. -/
theorem Separated.shape (h : Separated s) (hl : Linked s) : Shape s := by
  refine ⟨h.null, ?_, ?_⟩
  · intro r n hn
    obtain ⟨P, -, rfl⟩ := hn.exists_place h hl
    exact h.live P hn.ne
  · intro r q n hr hq
    obtain ⟨P, rfl, hP⟩ := hr.exists_place h hl
    obtain ⟨Q, rfl, hQ⟩ := hq.exists_place h hl
    rw [h.inj P Q (hP ▸ hr.ne) (hP.trans hQ.symm)]

/-- Every node at a place is reached. -/
theorem addr_reaches (h : Separated s) (P : Place) (hP : s.addr P ≠ 0) :
    Reaches s P.rank (s.addr P) := by
  induction P using Place.induct with
  | hroot t =>
    rw [Place.rank_root, addr_root]
    exact .root t hP
  | hsnoc P k hleaf hk ih =>
    rw [addr_snoc] at hP ⊢
    rw [Place.rank_snoc]
    apply Reaches.slot k (ih _) (P.rank_lt hleaf) hP
    intro e
    rw [e, h.null] at hP
    exact hP rfl

end

/-- `radix_cleanup` on `s` changes no value, leaves no empty node that can be reached, and
no root that points to a freed node. -/
structure CleanedUp (s : State) : Prop where
  get : ∀ i, radixGet (radixCleanup s) i = radixGet s i
  full : ∀ r n, Reaches (radixCleanup s) r n → ∃ k, (radixCleanup s).slot n k ≠ 0
  live : ∀ t, (radixCleanup s).root t ≠ 0 → (radixCleanup s).root t ∈ (radixCleanup s).live

/-- In every orderly run the cleanup is safe and complete. -/
theorem radixRun_cleanedUp {C : Calloc} {s : State} (hC : C.Succeeds) (h : RadixRun C s) :
    CleanedUp s := by
  obtain ⟨hsep, hl⟩ := h.inv hC
  obtain ⟨hsep', hl', hsame⟩ := radixCleanup_spec hsep hl
  refine ⟨?_, ?_, ?_⟩
  · intro i
    by_cases hi : OwnPath i
    · rw [radixGet_of_ownPath hsep' hi, radixGet_of_ownPath hsep hi,
        hsame _ (leafOf_isLeaf i hi)]
    · rw [radixGet_of_not_ownPath hsep' hi, radixGet_of_not_ownPath hsep hi]
  · intro r n hn
    obtain ⟨P, -, rfl⟩ := hn.exists_place hsep' hl'
    exact (radixCleanup_trimmed hsep hl).1 P hn.ne
  · exact fun t ht => hsep'.live (Place.root t) ht

/-- The leaf of 5 is left empty and freed. -/
theorem radixRun_cleanedUp_smallTree :
    CleanedUp (radixSet Calloc.bump
      (radixSet Calloc.bump (radixSet Calloc.bump radixCreate 5 1).2 0x2000 2).2 5 0).2 := by
  have hrun : RadixRun Calloc.bump (radixSet Calloc.bump
      (radixSet Calloc.bump (radixSet Calloc.bump radixCreate 5 1).2 0x2000 2).2 5 0).2 :=
    ((RadixRun.create.set 1 (by decide)).set 2 (by decide)).set 0 (by decide)
  exact radixRun_cleanedUp Calloc.bump_succeeds hrun

/-- An empty root is a node that is reached. -/
theorem exists_reached_empty {s : State} (t : Fin 4) (ht : s.root t ≠ 0)
    (hempty : ∀ k, s.slot (s.root t) k = 0) :
    ¬ ∀ r n, Reaches s r n → ∃ k, s.slot n k ≠ 0 := by
  intro h
  obtain ⟨k, hk⟩ := h t.val (s.root t) (.root t ht)
  exact hk (hempty k)

theorem exists_root_freed {s : State} (t : Fin 4) (ht : s.root t ≠ 0)
    (hfreed : s.root t ∉ s.live) : ¬ ∀ t, s.root t ≠ 0 → s.root t ∈ s.live :=
  fun h => hfreed (h t ht)

/-- `radix_set(rx, 0x100, 1)` and `radix_set(rx, 5, NULL)`: the leaf of 5 hangs on
`root_l3` only, and `radix_cleanup` leaves it there.  `radix_set(rx, 0x10000, NULL)`: its
leaf is `root_l3` too, and `radix_cleanup` frees it but keeps the root. -/
theorem radix_cleanup_misses_root :
    ¬ CleanedUp (runSets Calloc.bump radixCreate [(0x100, 1), (5, 0)]) ∧
      ¬ CleanedUp (runSets Calloc.bump radixCreate [(0x10000, 0)]) := by
  constructor
  · intro h
    apply exists_reached_empty (s := radixCleanup
      (runSets Calloc.bump radixCreate [(0x100, 1), (5, 0)])) 3 _ _ h.full
    · decide +kernel
    · decide +kernel
  · obtain ⟨s, hs⟩ : ∃ s, s = runSets Calloc.bump radixCreate [(0x10000, 0)] := ⟨_, rfl⟩
    rw [← hs]
    intro h
    refine exists_root_freed 3 ?_ ?_ h.live
    · rw [hs]
      decide +kernel
    · rw [hs]
      decide +kernel

end Ko6.Common.Radix
