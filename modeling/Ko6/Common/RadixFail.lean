import Ko6.Common.RadixTrim

set_option autoImplicit false

/-!
# Common: `radix_set` when `calloc` fails

One call of `radix_set` may need several nodes, and each call of `calloc` may fail.  The
nodes that were linked before the failure stay in the tree and are empty; reading goes
over them as it went over the missing ones.  Two things go wrong.  The node of a new
root is linked last, so it is lost when a node between it and the old root cannot be
allocated.  And a shortcut root that is moved to a node of another path lets go of the
node it pointed to.
-/

namespace Ko6.Common.Radix

/-! ## The calls of `calloc` -/

/-- The next `n` calls of `calloc` succeed. -/
def Granted (C : Calloc) : (n calls : Nat) → Finset Ptr → Prop
  | 0, _, _ => True
  | n + 1, calls, live =>
    C.pick calls live ≠ 0 ∧ Granted C n (calls + 1) (insert (C.pick calls live) live)

instance Granted.decidable (C : Calloc) :
    (n calls : Nat) → (live : Finset Ptr) → Decidable (Granted C n calls live)
  | 0, _, _ => inferInstanceAs (Decidable True)
  | n + 1, calls, live =>
    have : Decidable (Granted C n (calls + 1) (insert (C.pick calls live) live)) :=
      Granted.decidable C n _ _
    inferInstanceAs (Decidable (_ ∧ _))

/-- The next `n` calls of `calloc` from `s` on succeed. -/
def State.granted (s : State) (C : Calloc) (n : Nat) : Prop := Granted C n s.calls s.live

instance (s : State) (C : Calloc) (n : Nat) : Decidable (s.granted C n) :=
  inferInstanceAs (Decidable (Granted C n s.calls s.live))

/-- The nodes that are raised before a new `root_l<t>`. -/
def raiseNeeds (s : State) : Fin 4 → Nat
  | 0 => (if s.rootL2 = 0 ∧ s.rootL3 ≠ 0 then 1 else 0) +
      if s.rootL1 = 0 ∧ (s.rootL2 ≠ 0 ∨ s.rootL3 ≠ 0) then 1 else 0
  | 1 => if s.rootL2 = 0 ∧ s.rootL3 ≠ 0 then 1 else 0
  | 2 => 0
  | 3 => 0

/-- The nodes needed for the root of level `t`. -/
def topNeeds (s : State) (t : Fin 4) : Nat := if s.root t = 0 then 1 + raiseNeeds s t else 0

/-- The nodes missing on the way from `n` along some slices. -/
def missing (s : State) : Ptr → List (Fin radixSlots) → Nat
  | _, [] => 0
  | n, k :: path => (if s.slot n k = 0 then 1 else 0) + missing s (s.slot n k) path

/-! ## The calls that lose a node or a value -/

/-- The node of the new root is allocated, and one of the nodes raised below it is not. -/
def LosesTop (C : Calloc) (s : State) (i : UInt32) : Prop :=
  s.root (slices i).1 = 0 ∧ s.granted C 1 ∧ ¬ s.granted C (1 + raiseNeeds s (slices i).1)

/-- The call creates a node of level `u` in a slot 0, and stores it in `root_l<u>`. -/
def Moves (C : Calloc) (s : State) (i : UInt32) (u : Fin 4) : Prop :=
  ∃ p q, (slices i).2 = p ++ 0 :: q ∧ u.val = (slices i).1.val + p.length + 1 ∧
    s.walk (s.root (slices i).1) (p ++ [0]) = 0 ∧
    s.granted C (topNeeds s (slices i).1 + missing s (s.root (slices i).1) (p ++ [0]))

/-- `root_l<u>` points to a node that also hangs in a slot. -/
def Hanging (s : State) (u : Fin 4) : Prop :=
  s.root u ≠ 0 ∧ ∃ r n k, u.val = r + 1 ∧ Reaches s r n ∧ s.slot n k = s.root u

/-- A new `root_l<t>` comes with a node raised above `root_l<u>`. -/
def RaisedOver (s : State) (t u : Fin 4) : Prop :=
  s.root t = 0 ∧ t.val + 1 < u.val ∧ ∀ w : Fin 4, w.val + 1 = u.val → s.root w = 0

/-- `root_l<u>` is not `NULL` when the call comes to its level: it was not before the call,
or it was raised for a new `root_l<t>`. -/
def Occupied (s : State) (t u : Fin 4) : Prop :=
  s.root u ≠ 0 ∨ (s.root t = 0 ∧ s.next u ≠ 0)

/-- The call moves `root_l<u>` away from a node that hangs nowhere else. -/
def LosesRoot (C : Calloc) (s : State) (i : UInt32) (u : Fin 4) : Prop :=
  Moves C s i u ∧ Occupied s (slices i).1 u ∧ ¬ Hanging s u ∧ ¬ RaisedOver s (slices i).1 u

/-- The call moves a root from which values are read, and then a node is not allocated. -/
def Forgets (C : Calloc) (s : State) (i : UInt32) : Prop :=
  (∃ u, Moves C s i u ∧ ∃ j, (slices j).1 = u ∧ radixGet s j ≠ 0) ∧
    ¬ s.granted C (topNeeds s (slices i).1 + missing s (s.root (slices i).1) (slices i).2)

/-- The call loses nothing, and nothing is forgotten when it fails. -/
structure Keeps (C : Calloc) (s : State) (i : UInt32) : Prop where
  top : ¬ LosesTop C s i
  root : ∀ u, ¬ LosesRoot C s i u
  values : ¬ Forgets C s i

/-- The call leaves the values as they were, and every allocated node in the tree. -/
structure Clean (s s' : State) : Prop where
  get : ∀ j, radixGet s' j = radixGet s j
  reached : ∀ n ∈ s'.live, ∃ r, Reaches s' r n

section
variable {C : Calloc} {s s' s'' : State} {E : Finset Ptr} {a b n m m' : Ptr} {r g g' : Nat}
  {t u : Fin 4} {k : Fin radixSlots} {path : List (Fin radixSlots)} {i j : UInt32}

/-! ## Counting the calls of `calloc` -/

/-- `s'` comes after `g` calls that succeeded. -/
def Spent (C : Calloc) (s : State) (g : Nat) (s' : State) : Prop :=
  ∀ m, s'.granted C m ↔ s.granted C (g + m)

theorem Spent.of_same (hcalls : s'.calls = s.calls) (hlive : s'.live = s.live) :
    Spent C s 0 s' := by
  intro m
  rw [State.granted, State.granted, hcalls, hlive, Nat.zero_add]

theorem Spent.trans (h : Spent C s g s') (h' : Spent C s' g' s'') : Spent C s (g + g') s'' := by
  intro m
  rw [h' m, h (g' + m), Nat.add_assoc]

theorem Fresh.spent (hf : Fresh s a s') (hpick : C.pick s.calls s.live = a) :
    Spent C s 1 s' := by
  intro m
  rw [State.granted, State.granted, Nat.add_comm, Granted, hpick, hf.calls, hf.live]
  exact ⟨fun hm => ⟨hf.ne, hm⟩, fun hm => hm.2⟩

theorem granted_of_add {n : Nat} (h : s.granted C (r + n)) : s.granted C r := by
  unfold State.granted at h ⊢
  generalize s.calls = calls at h ⊢
  generalize s.live = live at h ⊢
  induction r generalizing calls live with
  | zero => trivial
  | succ r ih =>
    rw [Nat.add_right_comm] at h
    exact ⟨h.1, ih _ _ h.2⟩

theorem not_granted (hpick : C.pick s.calls s.live = 0) (m : Nat) : ¬ s.granted C (1 + m) :=
  fun h => (granted_of_add h).1 hpick

/-- Below a node without contents the whole way is missing. -/
theorem missing_eq_length (hnull : ∀ k, s.slot 0 k = 0) (hempty : ∀ k, s.slot n k = 0) :
    missing s n path = path.length := by
  induction path generalizing n with
  | nil => rfl
  | cons k path ih =>
    rw [missing, hempty, if_pos rfl, ih hnull, List.length_cons, Nat.add_comm]

/-! ## Reading over nodes without contents -/

theorem slices_head_ne {p : List (Fin radixSlots)} (h : (slices i).2 = k :: p) : k ≠ 0 := by
  unfold slices at h
  split_ifs at h with h1 h2 h3
  · simp only [List.cons.injEq] at h
    rintro rfl
    rw [lt_100_iff] at h1
    rw [lt_10000_iff] at h2
    exact h1 ⟨h2.1, h2.2, h.1⟩
  · simp only [List.cons.injEq] at h
    rintro rfl
    rw [lt_10000_iff] at h2
    rw [lt_1000000_iff] at h3
    exact h2 ⟨h3, h.1⟩
  · simp only [List.cons.injEq] at h
    rintro rfl
    rw [lt_1000000_iff] at h3
    exact h3 h.1

/-- The step from `s` to `s'` leaves what it reaches as it is, and puts nodes without
contents in empty slots. -/
structure Blank (s s' : State) : Prop where
  null : ∀ k, s.slot 0 k = 0
  null' : ∀ k, s'.slot 0 k = 0
  slot : ∀ r m k, Reaches s r m → s'.slot m k = s.slot m k ∨
    (r < 3 ∧ s.slot m k = 0 ∧ ∀ j, s'.slot (s'.slot m k) j = 0)

/-- Two walks that are together, or the second in a node without contents where the first
met `NULL`. -/
def Echo (s s' : State) (r : Nat) (m m' : Ptr) : Prop :=
  (m' = m ∧ (m = 0 ∨ Reaches s r m)) ∨ (m = 0 ∧ ∀ j, s'.slot m' j = 0)

theorem Blank.echo (hb : Blank s s') (hr : r < 3) (he : Echo s s' r m m') :
    Echo s s' (r + 1) (s.slot m k) (s'.slot m' k) := by
  rcases he with ⟨rfl, hm⟩ | ⟨rfl, hm'⟩
  · rcases hm with rfl | hm
    · exact .inl ⟨by rw [hb.null, hb.null'], .inl (hb.null k)⟩
    · rcases hb.slot r m' k hm with hsame | ⟨-, hz, hempty⟩
      · refine .inl ⟨hsame, ?_⟩
        by_cases hk : s.slot m' k = 0
        · exact .inl hk
        · exact .inr (.slot k hm hr hk)
      · exact .inr ⟨hz, hempty⟩
  · exact .inl ⟨by rw [hb.null, hm'], .inl (hb.null k)⟩

theorem Blank.walk (hb : Blank s s') (hr : r + path.length ≤ 3) (he : Echo s s' r m m') :
    Echo s s' (r + path.length) (s.walk m path) (s'.walk m' path) := by
  induction path generalizing r m m' with
  | nil => exact he
  | cons k path ih =>
    rw [List.length_cons] at hr ⊢
    have hstep := ih (by omega) (hb.echo (k := k) (by omega) he)
    rwa [show r + (path.length + 1) = r + 1 + path.length by omega]

theorem Blank.get_eq (hb : Blank s s')
    (he : Echo s s' (slices j).1.val (s.root (slices j).1) (s'.root (slices j).1)) :
    radixGet s' j = radixGet s j := by
  rw [radixGet_of_null hb.null, radixGet_of_null hb.null']
  have hlen : (slices j).1.val + (slices j).2.length = 3 := by
    rw [Nat.add_comm]
    exact slices_length j
  have hw := hb.walk hlen.le he
  rw [hlen] at hw
  rcases hw with ⟨heq, hm⟩ | ⟨hz, hempty⟩
  · rw [heq]
    rcases hm with hz | hm
    · rw [hz, hb.null, hb.null']
    · rcases hb.slot 3 _ (l3 j) hm with hsame | ⟨hlt, -⟩
      · exact hsame
      · exact absurd hlt (Nat.lt_irrefl 3)
  · rw [hz, hb.null, hempty]

/-- A root that is missing, or that has something in slot 0 only, reads `NULL`. -/
theorem get_eq_zero (hnull : ∀ k, s.slot 0 k = 0)
    (hroot : ∀ k, ((slices j).1 ≠ 3 → k ≠ 0) → s.slot (s.root (slices j).1) k = 0) :
    radixGet s j = 0 := by
  rw [radixGet_of_null hnull]
  have hlen := slices_length j
  cases hpath : (slices j).2 with
  | nil =>
    rw [hpath, List.length_nil, Nat.zero_add] at hlen
    rw [walk_nil]
    exact hroot _ fun h3 => absurd (Fin.ext hlen) h3
  | cons k p =>
    have hz : s.slot (s.root (slices j).1) k = 0 := hroot k fun _ => slices_head_ne hpath
    rw [walk_cons, hz, walk_zero hnull, hnull]

theorem Fresh.get_eq (hf : Fresh s a s') (h : Shape s) (j : UInt32) :
    radixGet s' j = radixGet s j := by
  have hb : Blank s s' := by
    refine ⟨h.null, (hf.shape h).null, ?_⟩
    intro r m k hm
    left
    rw [hf.slot, if_neg]
    rintro rfl
    exact hf.new (h.live r m hm)
  apply hb.get_eq
  left
  refine ⟨hf.root _, ?_⟩
  by_cases hz : s.root (slices j).1 = 0
  · exact .inl hz
  · exact .inr (.root _ hz)

theorem Planted.get_eq (hp : Planted s t a s') (h : Shape s) (ht : s.root t = 0)
    (ha : Loose s a) (j : UInt32) : radixGet s' j = radixGet s j := by
  have hnull' := (hp.shape h ht ha).null
  by_cases hjt : (slices j).1 = t
  · -- nothing is read through the new root
    have hold : radixGet s j = 0 := get_eq_zero h.null fun k _ => by rw [hjt, ht, h.null]
    rw [hold]
    apply get_eq_zero hnull'
    intro k hk
    rw [hjt] at hk ⊢
    rw [hp.root, if_pos rfl, hp.slot]
    by_cases hk0 : k = 0
    · have ht3 : t = 3 := by
        by_contra hne
        exact hk hne hk0
      rw [if_pos ⟨rfl, hk0⟩, ht3]
      rfl
    · rw [if_neg fun e => hk0 e.2, ha.empty]
  · have hb : Blank s s' := by
      refine ⟨h.null, hnull', ?_⟩
      intro r m k hm
      left
      rw [hp.slot, if_neg]
      rintro ⟨rfl, -⟩
      exact ha.unreached r hm
    apply hb.get_eq
    left
    refine ⟨by rw [hp.root, if_neg hjt], ?_⟩
    by_cases hz : s.root (slices j).1 = 0
    · exact .inl hz
    · exact .inr (.root _ hz)

theorem Hung.get_eq (hh : Hung s n k a s') (h : Shape s) (hn : Reaches s r n) (hr : r < 3)
    (hk : s.slot n k = 0) (ha : Loose s a) (j : UInt32) : radixGet s' j = radixGet s j := by
  have han : a ≠ n := by
    rintro rfl
    exact ha.unreached r hn
  have hb : Blank s s' := by
    refine ⟨h.null, (hh.shape h hn hr hk ha).null, ?_⟩
    intro q m l hm
    by_cases hml : m = n ∧ l = k
    · obtain ⟨rfl, rfl⟩ := hml
      right
      refine ⟨h.level q r m hm hn ▸ hr, hk, ?_⟩
      have hnew : s'.slot m l = a := by rw [hh.slot, if_pos ⟨rfl, rfl⟩]
      intro l'
      rw [hnew, hh.slot, if_neg fun e => han e.1, ha.empty]
    · left
      rw [hh.slot, if_neg hml]
  apply hb.get_eq
  left
  refine ⟨hh.root _, ?_⟩
  by_cases hz : s.root (slices j).1 = 0
  · exact .inl hz
  · exact .inr (.root _ hz)

theorem setRoot_get_ne (hnull : ∀ k, s.slot 0 k = 0) (hj : (slices j).1 ≠ u) :
    radixGet (s.setRoot u a) j = radixGet s j := by
  have hnull' : ∀ k, (s.setRoot u a).slot 0 k = 0 := fun k => by rw [slot_setRoot, hnull]
  have hwalk : ∀ (p : List (Fin radixSlots)) n, (s.setRoot u a).walk n p = s.walk n p := by
    intro p
    induction p with
    | nil => exact fun _ => rfl
    | cons k p ih =>
      intro n
      rw [walk_cons, walk_cons, slot_setRoot, ih]
  rw [radixGet_of_null hnull, radixGet_of_null hnull', hwalk, root_setRoot, if_neg hj,
    slot_setRoot]

theorem setRoot_get_eq (hnull : ∀ k, s.slot 0 k = 0) (hempty : ∀ k, s.slot a k = 0)
    (hu : ∀ j, (slices j).1 = u → radixGet s j = 0) (j : UInt32) :
    radixGet (s.setRoot u a) j = radixGet s j := by
  by_cases hj : (slices j).1 = u
  · rw [hu j hj]
    apply get_eq_zero fun k => by rw [slot_setRoot, hnull]
    intro k _
    rw [hj, root_setRoot, if_pos rfl, slot_setRoot, hempty]
  · exact setRoot_get_ne hnull hj

/-! ## Nodes that stay in the tree -/

/-- Every allocated node but those of `E` is reached. -/
def Held (s : State) (E : Finset Ptr) : Prop := ∀ x ∈ s.live, x ∉ E → ∃ r, Reaches s r x

theorem Fresh.held (hf : Fresh s a s') (h : Shape s) (hh : Held s E) :
    Held s' (insert a E) := by
  intro x hx hE
  rw [Finset.mem_insert, not_or] at hE
  rw [hf.live, Finset.mem_insert] at hx
  obtain ⟨r, hr⟩ := hh x (hx.resolve_left hE.1) hE.2
  exact ⟨r, (hf.reaches_iff h).mpr hr⟩

theorem Gains.held (hg : Gains s r a s') (hlive : s'.live = s.live)
    (hh : Held s (insert a E)) : Held s' E := by
  intro x hx hE
  by_cases hxa : x = a
  · exact ⟨r, (hg r x).mpr (.inr ⟨rfl, hxa⟩)⟩
  · rw [hlive] at hx
    obtain ⟨q, hq⟩ := hh x hx (by rw [Finset.mem_insert, not_or]; exact ⟨hxa, hE⟩)
    exact ⟨q, (hg q x).mpr (.inl hq)⟩

theorem Held.of_mono (hh : Held s E) (hlive : s'.live = s.live)
    (hreach : ∀ r x, Reaches s r x → Reaches s' r x) : Held s' E := by
  intro x hx hE
  obtain ⟨r, hr⟩ := hh x (hlive ▸ hx) hE
  exact ⟨r, hreach r x hr⟩

/-- A root is moved away from a node that also hangs in a slot: nothing is lost. -/
theorem reaches_setRoot (hu : s.root u ≠ 0 → Hanging s u) :
    ∀ r n, Reaches s r n → Reaches (s.setRoot u a) r n := by
  intro r
  -- on the level: the slot above the root stands at a smaller one
  induction r using Nat.strong_induction_on with
  | _ r ih =>
    intro n hn
    cases hn with
    | root w hw =>
      by_cases hwu : w = u
      · subst hwu
        obtain ⟨-, q, m, k, hq, hm, hslot⟩ := hu hw
        have hm' := ih q (by omega) m hm
        rw [← hslot, hq]
        rw [← slot_setRoot s w a] at hslot ⊢
        exact .slot k hm' (by have := w.isLt; omega) (by rw [hslot]; exact hw)
      · have hroot : (s.setRoot u a).root w = s.root w := by rw [root_setRoot, if_neg hwu]
        rw [← hroot] at hw ⊢
        exact .root w hw
    | @slot q m k hm hq hk =>
      have hm' := ih q (Nat.lt_succ_self q) m hm
      rw [← slot_setRoot s u a] at hk ⊢
      exact .slot k hm' hq hk

/-- A node that hangs in a slot still does when nothing is lost. -/
theorem Hanging.mono (hh : Hanging s u) (hroot : s'.root u = s.root u)
    (hreach : ∀ r n, Reaches s r n → Reaches s' r n)
    (hslot : ∀ r m k, Reaches s r m → s.slot m k ≠ 0 → s'.slot m k = s.slot m k) :
    Hanging s' u := by
  obtain ⟨hu, r, m, k, hr, hm, hk⟩ := hh
  refine ⟨by rwa [hroot], r, m, k, hr, hreach r m hm, ?_⟩
  rw [hslot r m k hm (by rw [hk]; exact hu), hk, hroot]

/-! ## The search of the root -/

/-- The steps from `s` to `s'` add nodes above and beside what is there. -/
structure Extends (s s' : State) : Prop where
  shape : Shape s'
  loose : ∀ b, Loose s b → Loose s' b
  get : ∀ j, radixGet s' j = radixGet s j
  held : ∀ E, Held s E → Held s' E
  reach : ∀ r n, Reaches s r n → Reaches s' r n
  root : ∀ u, s.root u ≠ 0 → s'.root u = s.root u
  slot : ∀ r m k, Reaches s r m → s'.slot m k = s.slot m k

theorem Extends.refl (h : Shape s) : Extends s s :=
  ⟨h, fun _ hb => hb, fun _ => rfl, fun _ hh => hh, fun _ _ hn => hn, fun _ _ => rfl,
    fun _ _ _ _ => rfl⟩

theorem Extends.trans (h : Extends s s') (h' : Extends s' s'') : Extends s s'' where
  shape := h'.shape
  loose b hb := h'.loose b (h.loose b hb)
  get j := (h'.get j).trans (h.get j)
  held E hE := h'.held E (h.held E hE)
  reach r n hn := h'.reach r n (h.reach r n hn)
  root u hu := by
    have hu' : s'.root u ≠ 0 := by rwa [h.root u hu]
    rw [h'.root u hu', h.root u hu]
  slot r m k hm := (h'.slot r m k (h.reach r m hm)).trans (h.slot r m k hm)

theorem Extends.hanging (h : Extends s s') (hh : Hanging s u) : Hanging s' u :=
  hh.mono (h.root u hh.1) h.reach fun r m k hm _ => h.slot r m k hm

theorem failed_extends (h : Shape s) : Extends s s.failed := by
  have hroot : ∀ u, s.failed.root u = s.root u := fun u => by fin_cases u <;> rfl
  have hiff : ∀ r n, Reaches s.failed r n ↔ Reaches s r n := fun r n =>
    ⟨Reaches.of_same hroot fun _ _ _ _ _ => rfl,
      Reaches.mono (fun u _ => hroot u) fun _ _ _ _ _ _ => rfl⟩
  refine ⟨h.of_subset h.null rfl fun r n => (hiff r n).mp, ?_, fun _ => rfl, ?_,
    fun r n => (hiff r n).mpr, fun u _ => hroot u, fun _ _ _ _ => rfl⟩
  · exact fun b hb => ⟨hb.ne, hb.live, hb.empty, fun r hr => hb.unreached r ((hiff r b).mp hr)⟩
  · exact fun E hE => hE.of_mono rfl fun r x => (hiff r x).mpr

/-- A node from `calloc` becomes a root, after other steps. -/
theorem Fresh.plant_extends (hf : Fresh s a s') (h : Shape s) (he : Extends s' s'') {s₃ : State}
    (hp : Planted s'' t a s₃) (ht : s''.root t = 0) : Extends s s₃ := by
  have ha := he.loose a (hf.loose h)
  have hgains := hp.gains ht ha
  have hreach : ∀ r n, Reaches s r n → Reaches s'' r n :=
    fun r n hn => he.reach r n ((hf.reaches_iff h).mpr hn)
  refine ⟨hp.shape he.shape ht ha, ?_, ?_, ?_, ?_, ?_, ?_⟩
  · intro b hb
    obtain ⟨hb', hba⟩ := hf.keep_loose h hb
    exact hp.keep_loose ht ha (he.loose b hb') hba
  · intro j
    rw [hp.get_eq he.shape ht ha, he.get, hf.get_eq h]
  · intro E hE
    exact hgains.held hp.live (he.held _ (hf.held h hE))
  · exact fun r n hn => (hgains r n).mpr (.inl (hreach r n hn))
  · intro u hu
    have hu' : s'.root u ≠ 0 := by rwa [hf.root]
    have hu'' := he.root u hu'
    rw [hp.root, if_neg, hu'', hf.root]
    rintro rfl
    exact hu' (hu''.symm.trans ht)
  · intro r m k hm
    have hma : m ≠ a := by
      rintro rfl
      exact hf.new (h.live r m hm)
    rw [hp.slot, if_neg fun e => hma e.1, he.slot r m k ((hf.reaches_iff h).mpr hm), hf.slot,
      if_neg hma]

/-- The nodes that one raise needs. -/
def needs (s : State) (t : Fin 4) : Nat := if s.root t = 0 ∧ s.next t ≠ 0 then 1 else 0

/-- A raise either fails for want of a node, or the root of its level is there whenever
the one of the next level is. -/
theorem RaiseCase.extends {res : Bool × State} (hr : RaiseCase C s t res) (h : Shape s) :
    Extends s res.2 ∧ (∀ u, u ≠ t → res.2.root u = s.root u) ∧
      (res.1 = false → ¬ s.granted C (needs s t)) ∧
      (res.1 = true → Spent C s (needs s t) res.2 ∧
        (res.2.root t ≠ 0 ↔ s.root t ≠ 0 ∨ s.next t ≠ 0) ∧
        ∀ u : Fin 4, u.val = t.val + 1 → s.root t = 0 → s.root u ≠ 0 → Hanging res.2 u) := by
  cases hr with
  | idle hidle =>
    have hneeds : needs s t = 0 := by
      rw [needs, if_neg]
      rintro ⟨ht, hnext⟩
      rcases hidle with hne | hz
      · exact hne ht
      · exact hnext hz
    refine ⟨Extends.refl h, fun _ _ => rfl, fun hf => absurd hf (by simp), fun _ => ?_⟩
    rw [hneeds]
    refine ⟨Spent.of_same rfl rfl, ⟨.inl, ?_⟩, ?_⟩
    · rintro (ht | hnext)
      · exact ht
      · exact hidle.resolve_right hnext
    · intro u hu ht hne
      rw [← next_eq_root hu] at hne
      rcases hidle with hne' | hz
      · exact absurd ht hne'
      · exact absurd hz hne
  | failed ht hnext hpick =>
    refine ⟨failed_extends h, fun u _ => by fin_cases u <;> rfl, fun _ => ?_,
      fun ht => absurd ht (by simp)⟩
    rw [needs, if_pos ⟨ht, hnext⟩]
    exact not_granted hpick 0
  | @planted a s₁ s' ht hnext hpick hf hp =>
    have ht₁ : s₁.root t = 0 := by rw [hf.root, ht]
    have hext := hf.plant_extends h (Extends.refl (hf.shape h)) hp ht₁
    have hself : s'.root t = a := by rw [hp.root, if_pos rfl]
    refine ⟨hext, ?_, fun hf => absurd hf (by simp), fun _ => ⟨?_, ?_, ?_⟩⟩
    · intro u hu
      rw [hp.root, if_neg hu, hf.root]
    · rw [needs, if_pos ⟨ht, hnext⟩]
      exact (hf.spent hpick).trans (Spent.of_same hp.calls hp.live)
    · rw [hself]
      exact ⟨fun _ => .inr hnext, fun _ => hf.ne⟩
    · intro u hu _ hne
      have hne' : s'.root u = s.root u := hext.root u hne
      have hnode : Reaches s' t.val (s'.root t) := .root t (by rw [hself]; exact hf.ne)
      refine ⟨by rwa [hne'], t.val, s'.root t, 0, hu, hnode, ?_⟩
      rw [hself, hp.slot, if_pos ⟨rfl, rfl⟩, hne', next_eq_root hu, hf.root]

/-- The roots are raised for a new `root_l<t>`. -/
structure Raised (C : Calloc) (s : State) (t : Fin 4) (s' : State) : Prop extends
    Extends s s' where
  low : ∀ u, u ≤ t → s'.root u = s.root u
  spent : Spent C s (raiseNeeds s t) s'
  occupied : ∀ u, 2 ≤ u → s'.root u ≠ 0 → s.root u ≠ 0 ∨ s.next u ≠ 0
  raised : ∀ u, t.val + 1 < u.val → (∀ w : Fin 4, w.val + 1 = u.val → s.root w = 0) →
    s'.root u ≠ 0 → Hanging s' u

theorem two_or_three {u : Fin 4} (hu : 1 < u.val) : u = 2 ∨ u = 3 := by
  have hlt := u.isLt
  have hcase : u.val = 2 ∨ u.val = 3 := by omega
  exact hcase.imp (fun e => Fin.ext e) fun e => Fin.ext e

theorem raises_cases (C : Calloc) (h : Shape s) (t : Fin 4) :
    (∃ s', raises C s t = (true, s') ∧ Raised C s t s') ∨
      ((raises C s t).1 = false ∧ ¬ s.granted C (raiseNeeds s t)) := by
  obtain ⟨hext, hroot, hfail, hok⟩ := (raiseL2_cases C s).extends h
  obtain ⟨⟨ok, s₂⟩, hs₂⟩ : ∃ r, raiseL2 C s = r := ⟨_, rfl⟩
  rw [hs₂] at hext hroot hfail hok
  simp only at hext hroot hfail hok
  have h3 : s₂.root 3 = s.root 3 := hroot 3 (by decide)
  have hidle : ∀ t : Fin 4, 1 < t.val → raiseNeeds s t = 0 → Raised C s t s := by
    intro t ht hz
    refine ⟨Extends.refl h, fun _ _ => rfl, hz ▸ Spent.of_same rfl rfl, fun _ _ hne => .inl hne, ?_⟩
    intro u hu
    have := u.isLt
    omega
  fin_cases t
  · cases ok with
    | false =>
      exact .inr ⟨by simp only [raises, hs₂], fun hg => hfail rfl (granted_of_add hg)⟩
    | true =>
      obtain ⟨hspent, hroot2, hover⟩ := hok rfl
      obtain ⟨hext', hroot', hfail', hok'⟩ := (raiseL1_cases C s₂).extends hext.shape
      obtain ⟨⟨ok, s₃⟩, hs₃⟩ : ∃ r, raiseL1 C s₂ = r := ⟨_, rfl⟩
      rw [hs₃] at hext' hroot' hfail' hok'
      simp only at hext' hroot' hfail' hok'
      have h1 : s₂.root 1 = s.root 1 := hroot 1 (by decide)
      have hneeds : raiseNeeds s 0 = needs s 2 + needs s₂ 1 := by
        change needs s 2 + _ = _
        congr 1
        apply if_congr _ rfl rfl
        exact and_congr (by rw [h1]; rfl) hroot2.symm
      cases ok with
      | false =>
        refine .inr ⟨by simp only [raises, hs₂, hs₃], ?_⟩
        change ¬ s.granted C (raiseNeeds s 0)
        rw [hneeds, ← hspent]
        exact hfail' rfl
      | true =>
        obtain ⟨hspent', hroot1, hover'⟩ := hok' rfl
        refine .inl ⟨s₃, by simp only [raises, hs₂, hs₃], hext.trans hext', ?_, ?_, ?_, ?_⟩
        · intro u hu
          have hu0 : u = 0 := le_antisymm hu (Fin.zero_le u)
          rw [hu0, hroot' 0 (by decide), hroot 0 (by decide)]
        · change Spent C s (raiseNeeds s 0) s₃
          rw [hneeds]
          exact hspent.trans hspent'
        · intro u hu hne
          rcases two_or_three hu with rfl | rfl
          · exact hroot2.mp (hroot' 2 (by decide) ▸ hne)
          · exact .inl (h3 ▸ hroot' 3 (by decide) ▸ hne)
        · intro u hu hw hne
          rcases two_or_three (show 1 < u.val from hu) with rfl | rfl
          · have hne₂ : s₂.root 2 ≠ 0 := hroot' 2 (by decide) ▸ hne
            exact hover' 2 rfl (h1.trans (hw 1 rfl)) hne₂
          · have hne₃ : s.root 3 ≠ 0 := h3 ▸ hroot' 3 (by decide) ▸ hne
            exact hext'.hanging (hover 3 rfl (hw 2 rfl) hne₃)
  · cases ok with
    | false => exact .inr ⟨by simp only [raises, hs₂], hfail rfl⟩
    | true =>
      obtain ⟨hspent, hroot2, hover⟩ := hok rfl
      refine .inl ⟨s₂, hs₂, hext, ?_, hspent, ?_, ?_⟩
      · intro u hu
        exact hroot u (ne_of_lt (lt_of_le_of_lt hu (by decide)))
      · intro u hu hne
        rcases two_or_three hu with rfl | rfl
        · exact hroot2.mp hne
        · exact .inl (h3 ▸ hne)
      · intro u hu hw hne
        rcases two_or_three (show 1 < u.val from Nat.lt_of_succ_lt hu) with rfl | rfl
        · exact absurd hu (by decide)
        · exact hover 3 rfl (hw 2 rfl) (h3 ▸ hne)
  · exact .inl ⟨s, rfl, hidle 2 (by decide) rfl⟩
  · exact .inl ⟨s, rfl, hidle 3 (by decide) rfl⟩

theorem raiseNeeds_congr (hroot : ∀ u, s'.root u = s.root u) (t : Fin 4) :
    raiseNeeds s' t = raiseNeeds s t := by
  have h1 : s'.rootL1 = s.rootL1 := hroot 1
  have h2 : s'.rootL2 = s.rootL2 := hroot 2
  have h3 : s'.rootL3 = s.rootL3 := hroot 3
  fin_cases t <;> simp only [raiseNeeds, h1, h2, h3]

theorem next_congr (hroot : ∀ u, s'.root u = s.root u) (t : Fin 4) : s'.next t = s.next t := by
  fin_cases t
  · exact hroot 1
  · exact hroot 2
  · exact hroot 3
  · rfl

/-- The root of level `t` has been found or created, and is `n`. -/
structure Topped (C : Calloc) (s : State) (t : Fin 4) (s' : State) (n : Ptr) : Prop extends
    Extends s s' where
  node : Reaches s' t.val n
  spent : Spent C s (topNeeds s t) s'
  first : ∀ k, k ≠ 0 → s'.slot n k = s.slot (s.root t) k
  occupied : ∀ u, t < u → 2 ≤ u → s'.root u ≠ 0 → Occupied s t u
  raised : ∀ u, t < u → RaisedOver s t u → s'.root u ≠ 0 → Hanging s' u

theorem TopCase.topped {res : Ptr × State} (hr : TopCase C s t res) (h : Shape s) :
    Topped C s t res.2 res.1 ∨ (res.1 = 0 ∧ Extends s res.2) ∨
      (s.root t = 0 ∧ s.granted C 1 ∧ ¬ s.granted C (1 + raiseNeeds s t)) := by
  cases hr with
  | present ht =>
    refine .inl ⟨Extends.refl h, .root t ht, ?_, fun _ _ => rfl, fun _ _ _ hne => .inl hne, ?_⟩
    · rw [topNeeds, if_neg ht]
      exact Spent.of_same rfl rfl
    · exact fun u _ hover => absurd hover.1 ht
  | failed ht hpick => exact .inr (.inl ⟨rfl, failed_extends h⟩)
  | @lost a s₁ s₂ ht hpick hf hraise =>
    refine .inr (.inr ⟨ht, ?_, ?_⟩)
    · rw [← Nat.add_zero 1, ← hf.spent hpick]
      trivial
    · rw [← hf.spent hpick, ← raiseNeeds_congr hf.root]
      rcases raises_cases C (hf.shape h) t with ⟨s', hs', -⟩ | ⟨-, hg⟩
      · rw [hs'] at hraise
        simp at hraise
      · exact hg
  | @planted a s₁ s₂ s' ht hpick hf hraise hp =>
    rcases raises_cases C (hf.shape h) t with ⟨s₂', hs₂', hraised⟩ | ⟨hfalse, -⟩
    · rw [hraise, Prod.mk.injEq] at hs₂'
      obtain ⟨-, rfl⟩ := hs₂'
      have ht₂ : s₂.root t = 0 := by rw [hraised.low t (le_refl t), hf.root, ht]
      have ha : Loose s₂ a := hraised.loose a (hf.loose h)
      have hself : s'.root t = a := by rw [hp.root, if_pos rfl]
      have hother : ∀ u, t < u → s'.root u = s₂.root u := by
        intro u hu
        rw [hp.root, if_neg hu.ne']
      refine .inl ⟨hf.plant_extends h hraised.toExtends hp ht₂, ?_, ?_, ?_, ?_, ?_⟩
      · rw [← hself]
        exact .root t (hself ▸ hf.ne)
      · rw [topNeeds, if_pos ht, ← raiseNeeds_congr hf.root]
        exact ((hf.spent hpick).trans hraised.spent).trans (Spent.of_same hp.calls hp.live)
      · intro k hk
        rw [hp.slot, if_neg fun e => hk e.2, ha.empty, ht, h.null]
      · intro u hu hu2 hne
        rw [hother u hu] at hne
        have hocc := hraised.occupied u hu2 hne
        rw [hf.root, next_congr hf.root] at hocc
        exact hocc.imp_right fun hnext => ⟨ht, hnext⟩
      · intro u hu hover hne
        rw [hother u hu] at hne
        have hw : ∀ w : Fin 4, w.val + 1 = u.val → s₁.root w = 0 := by
          intro w hw
          rw [hf.root, hover.2.2 w hw]
        apply (hraised.raised u hover.2.1 hw hne).mono (hother u hu)
        · exact fun r n hn => (hp.gains ht₂ ha r n).mpr (.inl hn)
        · intro r m k hm _
          rw [hp.slot, if_neg]
          rintro ⟨rfl, -⟩
          exact ha.unreached r hm
    · rw [hraise] at hfalse
      simp at hfalse

/-- The way down is that of before from every node that was there. -/
theorem Extends.walk_eq (he : Extends s s') (h : Shape s) (path : List (Fin radixSlots))
    (hm : m = 0 ∨ Reaches s r m) (hr : r + path.length ≤ 3) :
    s'.walk m path = s.walk m path ∧ missing s' m path = missing s m path := by
  induction path generalizing r m with
  | nil => exact ⟨rfl, rfl⟩
  | cons k path ih =>
    rw [List.length_cons] at hr
    have hslot : s'.slot m k = s.slot m k := by
      rcases hm with rfl | hm
      · rw [h.null, he.shape.null]
      · exact he.slot r m k hm
    have hnext : s.slot m k = 0 ∨ Reaches s (r + 1) (s.slot m k) := by
      by_cases hz : s.slot m k = 0
      · exact .inl hz
      · rcases hm with rfl | hm
        · exact absurd (h.null k) hz
        · exact .inr (.slot k hm (by omega) hz)
    obtain ⟨hw, hmiss⟩ := ih hnext (by omega)
    rw [walk_cons, walk_cons, missing, missing, hslot, hw, hmiss]
    exact ⟨rfl, rfl⟩

theorem Topped.walk_eq (ht : Topped C s t s' n) (h : Shape s) (path : List (Fin radixSlots))
    (hk : k ≠ 0) (hr : t.val + (path.length + 1) ≤ 3) :
    s'.walk n (k :: path) = s.walk (s.root t) (k :: path) ∧
      missing s' n (k :: path) = missing s (s.root t) (k :: path) := by
  have hslot := ht.first k hk
  have hnext : s.slot (s.root t) k = 0 ∨ Reaches s (t.val + 1) (s.slot (s.root t) k) := by
    by_cases hz : s.slot (s.root t) k = 0
    · exact .inl hz
    · refine .inr (.slot k (.root t ?_) (by omega) hz)
      intro e
      rw [e, h.null] at hz
      exact hz rfl
  obtain ⟨hw, hmiss⟩ := ht.toExtends.walk_eq h path hnext (by omega)
  rw [walk_cons, walk_cons, missing, missing, hslot, hw, hmiss]
  exact ⟨rfl, rfl⟩

/-! ## The way down -/

/-- On the way down from `n`, a node of level `u` is created in a slot 0. -/
def MovesFrom (C : Calloc) (s : State) (r : Nat) (n : Ptr) (path : List (Fin radixSlots))
    (u : Fin 4) : Prop :=
  ∃ p q, path = p ++ 0 :: q ∧ u.val = r + p.length + 1 ∧ s.walk n (p ++ [0]) = 0 ∧
    s.granted C (missing s n (p ++ [0]))

/-- A node without contents has been created for level `u`, and `root_l<u>` perhaps moved
to it. -/
structure Attached (C : Calloc) (s : State) (u : Fin 4) (s' : State) (a : Ptr) : Prop where
  shape : Shape s'
  held : Held s' ∅
  node : Reaches s' u.val a
  empty : ∀ k, s'.slot a k = 0
  spent : Spent C s 1 s'
  reach : ∀ r m, Reaches s r m → Reaches s' r m
  slot : ∀ r m k, Reaches s r m → s.slot m k ≠ 0 → s'.slot m k = s.slot m k
  root : ∀ w, w ≠ u → s'.root w = s.root w
  get : ∀ j, (slices j).1 ≠ u → radixGet s' j = radixGet s j

theorem Hung.attached (hh : Hung s' n k a s'') (hf : Fresh s a s')
    (hpick : C.pick s.calls s.live = a) (h : Shape s) (hheld : Held s ∅) (hn : Reaches s r n)
    (hu : u.val = r + 1) (hk : s.slot n k = 0)
    (hmove : k = 0 → s.root u ≠ 0 → Hanging s u) :
    Attached C s u (if k = 0 then s''.setRoot u a else s'') a ∧
      ((k ≠ 0 ∨ ∀ j, (slices j).1 = u → radixGet s j = 0) →
        ∀ j, radixGet (if k = 0 then s''.setRoot u a else s'') j = radixGet s j) := by
  have hr : r < 3 := by
    have := u.isLt
    omega
  have hn' : Reaches s' r n := (hf.reaches_iff h).mpr hn
  have hk' : s'.slot n k = 0 := by rw [hf.slot, hk, ite_self]
  have ha := hf.loose h
  have hgains := hh.gains (hf.shape h) hn' hr hk' ha
  have hshape := hh.shape (hf.shape h) hn' hr hk' ha
  have hnode : Reaches s'' u.val a := (hgains u.val a).mpr (.inr ⟨hu, rfl⟩)
  have hheld' : Held s'' ∅ := hgains.held hh.live (hf.held h hheld)
  have hreach : ∀ q m, Reaches s q m → Reaches s'' q m :=
    fun q m hm => (hgains q m).mpr (.inl ((hf.reaches_iff h).mpr hm))
  have hempty : ∀ l, s''.slot a l = 0 := by
    intro l
    rw [hh.slot, if_neg, ha.empty]
    rintro ⟨rfl, -⟩
    exact ha.unreached r hn'
  have hslot : ∀ q m l, Reaches s q m → s.slot m l ≠ 0 → s''.slot m l = s.slot m l := by
    intro q m l hm hl
    have hma : m ≠ a := by
      rintro rfl
      exact hf.new (h.live q m hm)
    rw [hh.slot, if_neg, hf.slot, if_neg hma]
    rintro ⟨rfl, rfl⟩
    exact hl hk
  have hget : ∀ j, radixGet s'' j = radixGet s j := fun j =>
    (hh.get_eq (hf.shape h) hn' hr hk' ha j).trans (hf.get_eq h j)
  have hroot : ∀ w, s''.root w = s.root w := fun w => (hh.root w).trans (hf.root w)
  have hspent : Spent C s 1 s'' := (hf.spent hpick).trans (Spent.of_same hh.calls hh.live)
  by_cases hk0 : k = 0
  · rw [if_pos hk0]
    have hhang : s''.root u ≠ 0 → Hanging s'' u := by
      intro hne
      rw [hroot] at hne
      exact (hmove hk0 hne).mono (hroot u) hreach hslot
    have hreach' := reaches_setRoot hhang (a := a)
    refine ⟨⟨hshape.setRoot hnode, ?_, hreach' _ _ hnode, ?_, ?_, ?_, ?_, ?_, ?_⟩, ?_⟩
    · exact hheld'.of_mono (live_setRoot s'' u a) hreach'
    · intro l
      rw [slot_setRoot, hempty]
    · exact hspent.trans (Spent.of_same (calls_setRoot s'' u a) (live_setRoot s'' u a))
    · exact fun q m hm => hreach' q m (hreach q m hm)
    · intro q m l hm hl
      rw [slot_setRoot, hslot q m l hm hl]
    · intro w hw
      rw [root_setRoot, if_neg hw, hroot]
    · intro j hj
      rw [setRoot_get_ne hshape.null hj, hget]
    · rintro (hne | hz) j
      · exact absurd hk0 hne
      · rw [setRoot_get_eq hshape.null hempty (fun j hj => (hget j).trans (hz j hj)), hget]
  · rw [if_neg hk0]
    exact ⟨⟨hshape, hheld', hnode, hempty, hspent, hreach, hslot, fun w _ => hroot w,
      fun j _ => hget j⟩, fun _ => hget⟩

/-- What the way down ends in: nothing is lost, and when it fails nothing is forgotten. -/
structure Descended (s : State) (r : Nat) (res : Ptr × State) : Prop where
  shape : Shape res.2
  held : Held res.2 ∅
  get : res.1 = 0 → ∀ j, radixGet res.2 j = radixGet s j
  node : res.1 ≠ 0 → Reaches res.2 r res.1

theorem MovesFrom.cons_present (hk : s.slot n k ≠ 0)
    (hm : MovesFrom C s (r + 1) (s.slot n k) path u) : MovesFrom C s r n (k :: path) u := by
  obtain ⟨p, q, hpath, hu, hw, hg⟩ := hm
  refine ⟨k :: p, q, ?_, ?_, ?_, ?_⟩
  · rw [hpath, List.cons_append]
  · rw [hu, List.length_cons]
    omega
  · rw [List.cons_append, walk_cons, hw]
  · rw [List.cons_append, missing, if_neg hk, Nat.zero_add]
    exact hg

theorem MovesFrom.cons_hung (h : Shape s) (hk : s.slot n k = 0) (ha : Attached C s t s' a)
    (hm : MovesFrom C s' (r + 1) a path u) : MovesFrom C s r n (k :: path) u := by
  obtain ⟨p, q, hpath, hu, -, hg⟩ := hm
  refine ⟨k :: p, q, ?_, ?_, ?_, ?_⟩
  · rw [hpath, List.cons_append]
  · rw [hu, List.length_cons]
    omega
  · rw [List.cons_append, walk_cons, hk, walk_zero h.null]
  · rw [List.cons_append, missing, if_pos hk, hk, missing_eq_length h.null h.null, ← ha.spent]
    rwa [missing_eq_length ha.shape.null ha.empty] at hg

/-- The way down loses nothing while each root it moves points to a node that hangs in a
slot; it forgets nothing when it fails while each root it moves reads `NULL`. -/
theorem descend_keeps (h : Shape s) (hheld : Held s ∅) (hn : Reaches s r n)
    (hr : r + path.length ≤ 3)
    (hroots : ∀ u, MovesFrom C s r n path u → s.root u ≠ 0 → Hanging s u)
    (hvalues : ∀ u, MovesFrom C s r n path u →
      s.granted C (missing s n path) ∨ ∀ j, (slices j).1 = u → radixGet s j = 0) :
    Descended s (r + path.length) (descend C r s n path) ∧
      (s.granted C (missing s n path) → (descend C r s n path).1 ≠ 0) := by
  induction path generalizing r s n with
  | nil =>
    exact ⟨⟨h, hheld, fun e => absurd e hn.ne, fun _ => hn⟩, fun _ => hn.ne⟩
  | cons k path ih =>
    rw [List.length_cons] at hr ⊢
    have hu : (Fin.ofNat 4 (r + 1)).val = r + 1 := Nat.mod_eq_of_lt (by omega)
    rw [show r + (path.length + 1) = r + 1 + path.length by omega]
    obtain ⟨res, hres⟩ : ∃ res,
      child (fun s a => s.setRoot (Fin.ofNat 4 (r + 1)) a) C s n k = res := ⟨_, rfl⟩
    have hcase := child_cases (fun s a => s.setRoot (Fin.ofNat 4 (r + 1)) a) C s n k
    rw [hres] at hcase
    cases hcase with
    | present hk =>
      have heq : descend C r s n (k :: path) = descend C (r + 1) s (s.slot n k) path := by
        simp only [descend, hres, hk, if_false]
      rw [heq, missing, if_neg hk, Nat.zero_add]
      rw [missing, if_neg hk, Nat.zero_add] at hvalues
      exact ih h hheld (.slot k hn (by omega) hk) (by omega)
        (fun u hm => hroots u (hm.cons_present hk))
        (fun u hm => hvalues u (hm.cons_present hk))
    | failed hk hpick =>
      have heq : descend C r s n (k :: path) = (0, s.failed) := by
        simp only [descend, hres, if_true]
      have hext := failed_extends h
      rw [heq, missing, if_pos hk]
      exact ⟨⟨hext.shape, hext.held ∅ hheld, fun _ => hext.get, fun e => absurd rfl e⟩,
        fun hg => absurd hg (not_granted hpick _)⟩
    | @hung a s₁ s₂ hk hpick hf hh =>
      have hself : k = 0 → MovesFrom C s r n (k :: path) (Fin.ofNat 4 (r + 1)) := by
        rintro rfl
        refine ⟨[], path, rfl, by rw [hu]; rfl, hk, ?_⟩
        rw [List.nil_append, missing, if_pos hk, missing, Nat.add_zero, ← Nat.add_zero 1,
          ← hf.spent hpick]
        trivial
      obtain ⟨hatt, hall⟩ := hh.attached hf hpick h hheld hn hu hk
        fun hk0 => hroots _ (hself hk0)
      have hmiss : missing s n (k :: path) = 1 + path.length := by
        rw [missing, if_pos hk, hk, missing_eq_length h.null h.null]
      generalize hs₃ : (if k = 0 then s₂.setRoot (Fin.ofNat 4 (r + 1)) a else s₂) = s₃
        at hatt hall hres
      have heq : descend C r s n (k :: path) = descend C (r + 1) s₃ a path := by
        simp only [descend, hres, hf.ne, if_false]
      have hmiss₃ : missing s₃ a path = path.length :=
        missing_eq_length hatt.shape.null hatt.empty
      have hne : ∀ u, MovesFrom C s₃ (r + 1) a path u → u ≠ Fin.ofNat 4 (r + 1) := by
        rintro u ⟨p, q, -, hu', -⟩ rfl
        omega
      have hgrant : s₃.granted C (missing s₃ a path) ↔ s.granted C (missing s n (k :: path)) := by
        rw [hmiss₃, hmiss]
        exact hatt.spent path.length
      obtain ⟨hd, hok⟩ := ih (s := s₃) (n := a) hatt.shape hatt.held (hu ▸ hatt.node) (by omega)
        (fun u hm hroot => by
          have hroot' := hatt.root u (hne u hm)
          rw [hroot'] at hroot
          exact (hroots u (hm.cons_hung h hk hatt) hroot).mono hroot' hatt.reach hatt.slot)
        (fun u hm => by
          refine (hvalues u (hm.cons_hung h hk hatt)).imp hgrant.mpr ?_
          intro hz j hj
          rw [hatt.get j (hj ▸ hne u hm), hz j hj])
      rw [heq, ← hgrant]
      refine ⟨⟨hd.shape, hd.held, ?_, hd.node⟩, hok⟩
      intro he j
      rw [hd.get he]
      apply hall
      by_cases hk0 : k = 0
      · rcases hvalues _ (hself hk0) with hg | hz
        · exact absurd he (hok (hgrant.mpr hg))
        · exact .inr hz
      · exact .inl hk0

/-! ## One call -/

theorem slices_sum (i : UInt32) : (slices i).1.val + (slices i).2.length = 3 := by
  rw [Nat.add_comm]
  exact slices_length i

/-- What the way down needs is what the whole call needs after its root. -/
theorem Topped.granted_iff (ht : Topped C s (slices i).1 s' n) (h : Shape s)
    {p q : List (Fin radixSlots)} (hpath : (slices i).2 = p ++ q) :
    s'.walk n p = (if p = [] then n else s.walk (s.root (slices i).1) p) ∧
      (s'.granted C (missing s' n p) ↔
        s.granted C (topNeeds s (slices i).1 + missing s (s.root (slices i).1) p)) := by
  cases p with
  | nil => exact ⟨rfl, ht.spent 0⟩
  | cons k p =>
    have hlen := slices_sum i
    rw [hpath, List.cons_append, List.length_cons, List.length_append] at hlen
    obtain ⟨hw, hmiss⟩ := ht.walk_eq h p (slices_head_ne hpath) (by omega)
    rw [hw, hmiss, ← ht.spent]
    exact ⟨by simp, Iff.rfl⟩

theorem Topped.moves (ht : Topped C s (slices i).1 s' n) (h : Shape s)
    (hm : MovesFrom C s' (slices i).1.val n (slices i).2 u) :
    Moves C s i u ∧ (slices i).1 < u ∧ 2 ≤ u := by
  obtain ⟨p, q, hpath, hu, hw, hg⟩ := hm
  have hp : p ≠ [] := by
    rintro rfl
    exact slices_head_ne hpath rfl
  have hpos : 0 < p.length := List.length_pos_iff.mpr hp
  obtain ⟨hw', hg'⟩ := ht.granted_iff h (p := p ++ [0]) (q := q) (by rw [hpath]; simp)
  rw [if_neg (by simp)] at hw'
  refine ⟨⟨p, q, hpath, hu, hw' ▸ hw, hg'.mp hg⟩, ?_, ?_⟩
  · rw [Fin.lt_def]
    omega
  · rw [Fin.le_def, show (2 : Fin 4).val = 2 from rfl]
    omega

/-- The step lemma: a call that keeps its condition loses no node, and changes no value
when it fails. -/
theorem radixSet_keeps (h : Shape s) (hheld : Held s ∅) (hk : Keeps C s i) (v : Ptr) :
    Shape (radixSet C s i v).2 ∧ Held (radixSet C s i v).2 ∅ ∧
      ((radixSet C s i v).1 = -1 → ∀ j, radixGet (radixSet C s i v).2 j = radixGet s j) := by
  rcases (topNode_cases C s (slices i).1).topped h with htop | ⟨hz, hext⟩ | hlost
  · obtain ⟨hd, -⟩ := descend_keeps htop.shape (htop.held ∅ hheld) htop.node (slices_sum i).le
      (fun u hm hne => by
        obtain ⟨hmoves, hlt, hu2⟩ := htop.moves h hm
        by_cases hhang : Hanging s u
        · exact htop.toExtends.hanging hhang
        by_cases hover : RaisedOver s (slices i).1 u
        · exact htop.raised u hlt hover hne
        · exact absurd ⟨hmoves, htop.occupied u hlt hu2 hne, hhang, hover⟩ (hk.root u))
      (fun u hm => by
        obtain ⟨hmoves, -⟩ := htop.moves h hm
        obtain ⟨-, hgrant⟩ := htop.granted_iff h (List.append_nil (slices i).2).symm
        by_cases hg : s.granted C (topNeeds s (slices i).1 +
            missing s (s.root (slices i).1) (slices i).2)
        · exact .inl (hgrant.mpr hg)
        · refine .inr fun j hj => ?_
          rw [htop.get]
          by_contra hne
          exact hk.values ⟨⟨u, hmoves, j, hj, hne⟩, hg⟩)
    rw [slices_sum] at hd
    rw [radixSet_eq_descend]
    simp only [htop.node.ne, if_false]
    by_cases hn3 : (descend C (slices i).1.val (topNode C s (slices i).1).2
        (topNode C s (slices i).1).1 (slices i).2).1 = 0
    · rw [if_pos hn3]
      refine ⟨hd.shape, hd.held, fun _ j => ?_⟩
      rw [hd.get hn3, htop.get]
    · rw [if_neg hn3]
      have hnode := hd.node hn3
      refine ⟨hd.shape.setLeaf hnode v, ?_, fun hret => absurd hret (by simp)⟩
      exact hd.held.of_mono rfl fun r x => (reaches_setLeaf_iff hd.shape hnode v).mpr
  · rw [radixSet_eq_descend]
    simp only [hz, if_true]
    exact ⟨hext.shape, hext.held ∅ hheld, fun _ => hext.get⟩
  · exact absurd hlost hk.top

/-- An index that leads through no slot 0 moves no root. -/
theorem Keeps.of_nonzero (hi : 0 ∉ (slices i).2) (ht : ¬ LosesTop C s i) : Keeps C s i := by
  have hno : ∀ u, ¬ Moves C s i u := by
    rintro u ⟨p, q, hpath, -⟩
    apply hi
    rw [hpath]
    simp
  exact ⟨ht, fun u hl => hno u hl.1, fun hf => hno _ hf.1.choose_spec.1⟩

end

/-! ## Runs -/

/-- The trees obtained from `radix_create` by calls of `radix_set`, each of which keeps its
condition, and by `radix_cleanup` on trees that are separated and linked. -/
inductive KeepRun (C : Calloc) : State → Prop where
  | create : KeepRun C radixCreate
  | set {s : State} {i : UInt32} (v : Ptr) : KeepRun C s → Keeps C s i →
      KeepRun C (radixSet C s i v).2
  | cleanup {s : State} : KeepRun C s → Separated s → Linked s → KeepRun C (radixCleanup s)

theorem radixCleanup_held {s : State} (h : Separated s) (hl : Linked s) (hheld : Held s ∅) :
    Held (radixCleanup s) ∅ := by
  obtain ⟨hsep', hl', -⟩ := radixCleanup_spec h hl
  obtain ⟨-, hshrunk⟩ := radixCleanup_trimmed h hl
  intro x hx _
  obtain ⟨r, hr⟩ := hheld x (hshrunk.live hx) (Finset.notMem_empty x)
  obtain ⟨P, -, rfl⟩ := hr.exists_place h hl
  rcases hshrunk.addr P with heq | ⟨-, hfreed⟩
  · have hne : (radixCleanup s).addr P ≠ 0 := by rw [heq]; exact hr.ne
    rw [← heq]
    exact ⟨P.rank, addr_reaches hsep' P hne⟩
  · exact absurd hx hfreed

theorem KeepRun.inv {C : Calloc} {s : State} (h : KeepRun C s) : Shape s ∧ Held s ∅ := by
  induction h with
  | create => exact ⟨shape_create, fun x hx => absurd hx (Finset.notMem_empty x)⟩
  | set v _ hk ih =>
    obtain ⟨hshape, hheld, -⟩ := radixSet_keeps ih.1 ih.2 hk v
    exact ⟨hshape, hheld⟩
  | cleanup _ hsep hl ih =>
    obtain ⟨hsep', hl', -⟩ := radixCleanup_spec hsep hl
    exact ⟨hsep'.shape hl', radixCleanup_held hsep hl ih.2⟩

/-- In every such run, whatever `calloc` does, a call that returns -1 is clean. -/
theorem keepRun_clean {C : Calloc} {s : State} {i : UInt32} {v : Ptr} (h : KeepRun C s)
    (hk : Keeps C s i) (hfail : (radixSet C s i v).1 = -1) : Clean s (radixSet C s i v).2 := by
  obtain ⟨hshape, hheld⟩ := h.inv
  obtain ⟨-, hheld', hget⟩ := radixSet_keeps hshape hheld hk v
  exact ⟨hget hfail, fun n hn => hheld' n hn (Finset.notMem_empty n)⟩

/-- A `calloc` whose first `n` calls succeed. -/
def Calloc.limited (n : Nat) : Calloc where
  pick calls live := if calls < n then live.sup id + 1 else 0
  pick_fresh := by
    intro calls live hne hmem
    split_ifs at hne hmem
    · have hle : id (live.sup id + 1) ≤ live.sup id := Finset.le_sup hmem
      exact absurd hle (Nat.not_succ_le_self _)
    · exact hne rfl

/-- The leaf of 0x100 cannot be allocated, its `root_l2` stays. -/
theorem keepRun_clean_noLeaf :
    Clean (radixSet (Calloc.limited 2) radixCreate 5 1).2
      (radixSet (Calloc.limited 2) (radixSet (Calloc.limited 2) radixCreate 5 1).2 0x100 2).2 := by
  have hrun : KeepRun (Calloc.limited 2) (radixSet (Calloc.limited 2) radixCreate 5 1).2 := by
    refine KeepRun.create.set 1 (Keeps.of_nonzero (by decide) ?_)
    unfold LosesTop
    decide +kernel
  refine keepRun_clean (i := 0x100) (v := 2) hrun (Keeps.of_nonzero (by decide) ?_) ?_
  · unfold LosesTop
    decide +kernel
  · decide +kernel

/-- With `root_l3` alone, only that is reached. -/
theorem reaches_only_l3 {s : State} (h0 : s.root 0 = 0) (h1 : s.root 1 = 0)
    (h2 : s.root 2 = 0) {r : Nat} {n : Ptr} (hn : Reaches s r n) : r = 3 ∧ n = s.root 3 := by
  induction hn with
  | root t ht =>
    fin_cases t
    · exact absurd h0 ht
    · exact absurd h1 ht
    · exact absurd h2 ht
    · exact ⟨rfl, rfl⟩
  | slot k _ hr _ ih =>
    rw [ih.1] at hr
    exact absurd hr (Nat.lt_irrefl 3)

/-- After `radix_set(rx, 5, 1)`, `radix_set(rx, 0x10000, 1)` allocates the new `root_l1` but
not `root_l2`: it returns -1 and the node is lost.  After `radix_set(rx, 0x100, 1)`,
`radix_set(rx, 0x1000000, 1)` moves `root_l2` and then lacks a leaf: it returns -1 and the
value at 0x100 is lost. -/
theorem radix_set_fails_unclean :
    ((radixSet (Calloc.limited 2) (radixSet (Calloc.limited 2) radixCreate 5 1).2 0x10000 1).1 = -1 ∧
      ¬ Clean (radixSet (Calloc.limited 2) radixCreate 5 1).2
        (radixSet (Calloc.limited 2) (radixSet (Calloc.limited 2) radixCreate 5 1).2 0x10000 1).2) ∧
    ((radixSet (Calloc.limited 6)
        (radixSet (Calloc.limited 6) radixCreate 0x100 1).2 0x1000000 1).1 = -1 ∧
      ¬ Clean (radixSet (Calloc.limited 6) radixCreate 0x100 1).2
        (radixSet (Calloc.limited 6)
          (radixSet (Calloc.limited 6) radixCreate 0x100 1).2 0x1000000 1).2) := by
  refine ⟨⟨by decide +kernel, ?_⟩, ⟨by decide +kernel, ?_⟩⟩
  · intro h
    obtain ⟨r, hr⟩ := h.reached 2 (by decide +kernel)
    have honly := (reaches_only_l3 (by decide +kernel) (by decide +kernel)
      (by decide +kernel) hr).2
    revert honly
    decide +kernel
  · intro h
    have hget := h.get 0x100
    revert hget
    decide +kernel

end Ko6.Common.Radix
