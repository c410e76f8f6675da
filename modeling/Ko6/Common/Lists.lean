import Ko6.Lib.Ring

set_option autoImplicit false

/-!
# Common: the intrusive lists of `common/list.h`

A `list_t` is two pointers embedded in the root of a list and in each of its
items.  Where the cells are stored is the business of the user: the thread
structures for the wait lists, the free memory itself for the slab lists.  The
functions are therefore written over a `CellStore`, which gives the two links of
a cell in a state and the writes to them.

`Rep` ties a root to the sequence of its items, and every operation has one
lemma: what it does to the sequence.  The writes of an operation go to the root,
to the item and to one neighbour of each; the `touches` lemmas say that whatever
does not depend on these cells is unchanged.
-/

namespace Ko6.Common

open Ko6.Lib

/-- A state with `list_t` cells in it.  Only addresses that are cells are
promised to be independent of each other, and only these are read back as they
were written. -/
structure CellStore (σ α : Type) where
  IsCell : α → Prop
  next : σ → α → α
  prev : σ → α → α
  setNext : σ → α → α → σ
  setPrev : σ → α → α → σ
  next_setNext : ∀ s a v, IsCell a → IsCell v → next (setNext s a v) a = v
  next_setNext_ne : ∀ s a b v, IsCell a → IsCell b → b ≠ a →
    next (setNext s a v) b = next s b
  prev_setNext : ∀ s a b v, IsCell a → IsCell b → prev (setNext s a v) b = prev s b
  prev_setPrev : ∀ s a v, IsCell a → IsCell v → prev (setPrev s a v) a = v
  prev_setPrev_ne : ∀ s a b v, IsCell a → IsCell b → b ≠ a →
    prev (setPrev s a v) b = prev s b
  next_setPrev : ∀ s a b v, IsCell a → IsCell b → next (setPrev s a v) b = next s b

section
variable {σ α : Type} (st : CellStore σ α)

/-- `list_init`. -/
def listInit (s : σ) (root : α) : σ :=
  st.setNext (st.setPrev s root root) root root

/-- `list_isempty`. -/
def listIsempty [DecidableEq α] (s : σ) (root : α) : Bool := decide (root = st.next s root)

/-- `list_addfirst`. -/
def listAddfirst (s : σ) (root item : α) : σ :=
  let s := st.setNext s item (st.next s root)
  let s := st.setPrev s item root
  let s := st.setPrev s (st.next s root) item
  st.setNext s root item

/-- `list_addlast`. -/
def listAddlast (s : σ) (root item : α) : σ := listAddfirst st s (st.prev s root) item

/-- `list_unlink`. -/
def listUnlink (s : σ) (item : α) : σ :=
  let s := st.setNext s (st.prev s item) (st.next s item)
  st.setPrev s (st.next s item) (st.prev s item)

/-- `list_getfirst`: the item, if any, and the state without it. -/
def listGetfirst [DecidableEq α] (s : σ) (root : α) : Option α × σ :=
  if listIsempty st s root then (none, s)
  else (some (st.next s root), listUnlink st s (st.next s root))

/-- `list_getlast`. -/
def listGetlast [DecidableEq α] (s : σ) (root : α) : Option α × σ :=
  if listIsempty st s root then (none, s)
  else (some (st.prev s root), listUnlink st s (st.prev s root))

/-- The loop of `list_addsort`: the new item goes before the first one that does
not compare below it. -/
def addsortLoop [DecidableEq α] (cmp : α → α → Int) (root item : α) :
    Nat → σ → α → Option σ
  | 0, _, _ => none
  | n + 1, s, curr =>
    if curr = root then some (listAddlast st s root item)
    else if 0 ≤ cmp curr item then some (listAddlast st s curr item)
    else addsortLoop cmp root item n s (st.next s curr)

/-- `list_addsort`. -/
def listAddsort [DecidableEq α] (fuel : Nat) (cmp : α → α → Int) (s : σ) (root item : α) :
    Option σ :=
  addsortLoop st cmp root item fuel s (st.next s root)

/-- The loop of `list_foreach`: the next item is read before the body runs.
`none` when the list has not come back to its root within the fuel. -/
def foreachLoop [DecidableEq α] (body : σ → α → σ) (root : α) : Nat → σ → α → α → Option σ
  | 0, _, _, _ => none
  | n + 1, s, item, nxt =>
    if item = root then some s
    else
      let s := body s item
      foreachLoop body root n s nxt (st.next s nxt)

/-- `list_foreach (root, item) body`. -/
def listForeach [DecidableEq α] (fuel : Nat) (body : σ → α → σ) (s : σ) (root : α) :
    Option σ :=
  let item := st.next s root
  foreachLoop st body root fuel s item (st.next s item)

/-- The loop of `list_foreach` and `list_foreach_rev`, which goes by the links `link`,
around a body `if (found) return item`. -/
def searchLoop [DecidableEq α] (link : α → α) (found : α → Bool) (root : α) :
    Nat → α → α → Option (Option α)
  | 0, _, _ => none
  | n + 1, item, nxt =>
    if item = root then some none
    else if found item then some (some item)
    else searchLoop link found root n nxt (link nxt)

/-- `list_foreach (root, item) if (found) return item;`, with `some none` when the loop
ends. -/
def listSearch [DecidableEq α] (fuel : Nat) (found : α → Bool) (s : σ) (root : α) :
    Option (Option α) :=
  let item := st.next s root
  searchLoop (st.next s) found root fuel item (st.next s item)

/-- `list_foreach_rev (root, item) if (found) return item;`. -/
def listSearchRev [DecidableEq α] (fuel : Nat) (found : α → Bool) (s : σ) (root : α) :
    Option (Option α) :=
  let item := st.prev s root
  searchLoop (st.prev s) found root fuel item (st.prev s item)

end

/-! ## Lists as sequences -/

/-- The list at `root` holds the items `xs`, in order. -/
structure Rep {σ α : Type} (st : CellStore σ α) (s : σ) (root : α) (xs : List α) :
    Prop where
  ring : IsRing (st.next s) (st.prev s) root xs
  cells : ∀ a ∈ root :: xs, st.IsCell a

/-- The links of cell `a` are no part of what `f` observes. -/
structure Outside {σ α β : Type} (st : CellStore σ α) (f : σ → β) (a : α) : Prop where
  setNext : ∀ s v, f (st.setNext s a v) = f s
  setPrev : ∀ s v, f (st.setPrev s a v) = f s

/-- The step from `s` to `s'` writes links of the cells `X` and nothing else. -/
def Touches {σ α : Type} (st : CellStore σ α) (X : List α) (s s' : σ) : Prop :=
  ∀ (β : Type) (f : σ → β), (∀ a ∈ X, Outside st f a) → f s' = f s

section
variable {σ α : Type} {st : CellStore σ α} {s : σ} {root : α}

theorem Touches.refl {X : List α} : Touches st X s s := fun _ _ _ => rfl

theorem Touches.trans {X : List α} {s' s'' : σ} (h : Touches st X s s')
    (h' : Touches st X s' s'') : Touches st X s s'' :=
  fun β f hf => (h' β f hf).trans (h β f hf)

theorem Touches.mono {X Y : List α} {s' : σ} (h : Touches st X s s')
    (hXY : ∀ a ∈ X, a ∈ Y) : Touches st Y s s' :=
  fun β f hf => h β f fun a ha => hf a (hXY a ha)

theorem Rep.not_mem {xs : List α} (h : Rep st s root xs) : root ∉ xs :=
  (List.nodup_cons.mp h.ring.nodup).1

theorem Rep.nodup {xs : List α} (h : Rep st s root xs) : xs.Nodup :=
  (List.nodup_cons.mp h.ring.nodup).2

theorem Rep.unique {xs ys : List α} (h : Rep st s root xs) (h' : Rep st s root ys) : xs = ys :=
  h.ring.unique h'.ring

theorem Rep.congr {s' : σ} {xs : List α} (h : Rep st s root xs)
    (hnext : ∀ a ∈ root :: xs, st.next s' a = st.next s a)
    (hprev : ∀ a ∈ root :: xs, st.prev s' a = st.prev s a) : Rep st s' root xs :=
  ⟨h.ring.congr hnext hprev, h.cells⟩

/-- A list whose links read the same. -/
theorem Rep.other {s' : σ} {r : α} {xs : List α} (h : Rep st s r xs)
    (hf : ∀ c ∈ r :: xs, (st.next s' c, st.prev s' c) = (st.next s c, st.prev s c)) :
    Rep st s' r xs :=
  h.congr (fun c hc => congrArg Prod.fst (hf c hc)) (fun c hc => congrArg Prod.snd (hf c hc))

theorem rep_init (hroot : st.IsCell root) : Rep st (listInit st s root) root [] := by
  refine ⟨isRing_nil ?_ ?_, by simpa using hroot⟩
  · exact st.next_setNext _ _ _ hroot hroot
  · rw [listInit, st.prev_setNext _ _ _ _ hroot hroot, st.prev_setPrev _ _ _ hroot hroot]

theorem init_touches : Touches st [root] s (listInit st s root) := by
  intro β f hf
  have hroot := hf root (by simp)
  rw [listInit, hroot.setNext, hroot.setPrev]

theorem Rep.isempty_iff [DecidableEq α] {xs : List α} (h : Rep st s root xs) :
    listIsempty st s root = true ↔ xs = [] := by
  rw [listIsempty, decide_eq_true_iff, eq_comm]
  exact h.ring.next_root_eq_iff

/-! ### Insertion -/

/-- `list_addfirst` with its second read of `root->next` resolved: the writes to
the item before it do not touch the root. -/
theorem addfirst_eq {item : α} (hroot : st.IsCell root) (hitem : st.IsCell item)
    (hne : item ≠ root) :
    listAddfirst st s root item = st.setNext (st.setPrev (st.setPrev
      (st.setNext s item (st.next s root)) item root) (st.next s root) item) root item := by
  have hread : st.next (st.setPrev (st.setNext s item (st.next s root)) item root) root
      = st.next s root := by
    rw [st.next_setPrev _ _ _ _ hitem hroot, st.next_setNext_ne _ _ _ _ hitem hroot hne.symm]
  simp only [listAddfirst, hread]

/-- The four writes of `list_addfirst`, as reads afterwards. -/
theorem addfirst_links {item : α} (hroot : st.IsCell root) (hitem : st.IsCell item)
    (hq : st.IsCell (st.next s root)) (hne : item ≠ root) (hiq : item ≠ st.next s root) :
    st.next (listAddfirst st s root item) root = item ∧
    st.next (listAddfirst st s root item) item = st.next s root ∧
    st.prev (listAddfirst st s root item) item = root ∧
    st.prev (listAddfirst st s root item) (st.next s root) = item ∧
    (∀ a, st.IsCell a → a ≠ root → a ≠ item →
      st.next (listAddfirst st s root item) a = st.next s a) ∧
    (∀ a, st.IsCell a → a ≠ st.next s root → a ≠ item →
      st.prev (listAddfirst st s root item) a = st.prev s a) := by
  rw [addfirst_eq hroot hitem hne]
  refine ⟨?_, ?_, ?_, ?_, ?_, ?_⟩
  · exact st.next_setNext _ _ _ hroot hitem
  · rw [st.next_setNext_ne _ _ _ _ hroot hitem hne, st.next_setPrev _ _ _ _ hq hitem,
      st.next_setPrev _ _ _ _ hitem hitem, st.next_setNext _ _ _ hitem hq]
  · rw [st.prev_setNext _ _ _ _ hroot hitem, st.prev_setPrev_ne _ _ _ _ hq hitem hiq,
      st.prev_setPrev _ _ _ hitem hroot]
  · rw [st.prev_setNext _ _ _ _ hroot hq, st.prev_setPrev _ _ _ hq hitem]
  · intro a ha har hai
    rw [st.next_setNext_ne _ _ _ _ hroot ha har, st.next_setPrev _ _ _ _ hq ha,
      st.next_setPrev _ _ _ _ hitem ha, st.next_setNext_ne _ _ _ _ hitem ha hai]
  · intro a ha haq hai
    rw [st.prev_setNext _ _ _ _ hroot ha, st.prev_setPrev_ne _ _ _ _ hq ha haq,
      st.prev_setPrev_ne _ _ _ _ hitem ha hai, st.prev_setNext _ _ _ _ hitem ha]

/-- `list_addfirst` behind any cell of the list. -/
theorem Rep.addAfter {ys zs : List α} {p item : α} (h : Rep st s root (ys ++ zs))
    (hp : (root :: ys).getLast (by simp) = p) (hitem : st.IsCell item)
    (hnew : item ∉ root :: (ys ++ zs)) :
    Rep st (listAddfirst st s p item) root (ys ++ item :: zs) := by
  have hcut := h.ring.cut
  rw [hp] at hcut
  obtain ⟨hpmem, hqmem⟩ := h.ring.cut_mem hp
  obtain ⟨h1, h2, h3, h4, h5, h6⟩ := addfirst_links (h.cells p hpmem) hitem
    (h.cells _ hqmem) (fun e => hnew (e ▸ hpmem)) (fun e => hnew (e ▸ hqmem))
  refine ⟨h.ring.insert hnew hp hcut.1.symm h1 h3 h2 h4 ?_ ?_, ?_⟩
  · intro a ha hap
    exact h5 a (h.cells a ha) hap fun e => hnew (e ▸ ha)
  · intro a ha haq
    exact h6 a (h.cells a ha) haq fun e => hnew (e ▸ ha)
  · intro a ha
    have hperm : (root :: (ys ++ item :: zs)).Perm (item :: root :: (ys ++ zs)) :=
      (@List.perm_middle _ item (root :: ys) zs).trans (List.Perm.refl _)
    rcases List.mem_cons.mp (hperm.mem_iff.mp ha) with he | he
    · rw [he]
      exact hitem
    · exact h.cells a he

theorem Rep.addfirst {xs : List α} {item : α} (h : Rep st s root xs)
    (hitem : st.IsCell item) (hnew : item ∉ root :: xs) :
    Rep st (listAddfirst st s root item) root (item :: xs) := by
  have h₀ : Rep st s root ([] ++ xs) := h
  exact h₀.addAfter rfl hitem hnew

theorem Rep.addlast {xs : List α} {item : α} (h : Rep st s root xs)
    (hitem : st.IsCell item) (hnew : item ∉ root :: xs) :
    Rep st (listAddlast st s root item) root (xs ++ [item]) := by
  have h₀ : Rep st s root (xs ++ []) := by simpa using h
  rw [listAddlast, h.ring.prev_root]
  exact h₀.addAfter rfl hitem (by simpa using hnew)

/-! ### Removal -/

/-- A member stands once in its list. -/
theorem Rep.not_mem_rest {ys zs : List α} {item : α} (h : Rep st s root (ys ++ item :: zs)) :
    item ∉ root :: (ys ++ zs) := by
  have hperm : (root :: (ys ++ item :: zs)).Perm (item :: root :: (ys ++ zs)) :=
    (@List.perm_middle _ item (root :: ys) zs).trans (List.Perm.refl _)
  exact (List.nodup_cons.mp (hperm.nodup_iff.mp h.ring.nodup)).1

theorem Rep.cells_rest {ys zs : List α} {item : α} (h : Rep st s root (ys ++ item :: zs)) :
    ∀ a ∈ root :: (ys ++ zs), st.IsCell a := by
  intro a ha
  refine h.cells a ?_
  simp only [List.mem_cons, List.mem_append] at ha ⊢
  tauto

/-- The neighbours of a member belong to the rest of the list, and `list_unlink`
is one write to each. -/
theorem Rep.unlink_eq {ys zs : List α} {item : α} (h : Rep st s root (ys ++ item :: zs)) :
    st.prev s item ∈ root :: (ys ++ zs) ∧ st.next s item ∈ root :: (ys ++ zs) ∧
    listUnlink st s item = st.setPrev (st.setNext s (st.prev s item) (st.next s item))
      (st.next s item) (st.prev s item) := by
  have hpmem : st.prev s item ∈ root :: (ys ++ zs) := by
    rw [h.ring.prev_mem]
    exact getLast_mem_ring root ys zs
  have hqmem : st.next s item ∈ root :: (ys ++ zs) := by
    rw [h.ring.next_mem]
    exact head_mem_ring root ys zs
  have hi : st.IsCell item := h.cells item (by simp)
  have hpc : st.IsCell (st.prev s item) := h.cells_rest _ hpmem
  have hnd := h.not_mem_rest
  have hip : item ≠ st.prev s item := fun e => hnd (e ▸ hpmem)
  -- the second write reads the links of the item again
  have hread₁ : st.next (st.setNext s (st.prev s item) (st.next s item)) item
      = st.next s item := st.next_setNext_ne _ _ _ _ hpc hi hip
  have hread₂ : st.prev (st.setNext s (st.prev s item) (st.next s item)) item
      = st.prev s item := st.prev_setNext _ _ _ _ hpc hi
  refine ⟨hpmem, hqmem, ?_⟩
  simp only [listUnlink, hread₁, hread₂]

/-- `list_unlink` of a member. -/
theorem Rep.unlink {ys zs : List α} {item : α} (h : Rep st s root (ys ++ item :: zs)) :
    Rep st (listUnlink st s item) root (ys ++ zs) := by
  have hcell := h.cells_rest
  obtain ⟨hpmem, hqmem, hdef⟩ := h.unlink_eq
  have hpc := hcell _ hpmem
  have hqc := hcell _ hqmem
  rw [hdef]
  refine ⟨h.ring.remove ?_ ?_ ?_ ?_, hcell⟩
  · rw [st.next_setPrev _ _ _ _ hqc hpc, st.next_setNext _ _ _ hpc hqc]
  · exact st.prev_setPrev _ _ _ hqc hpc
  · intro a ha hap
    have hac := hcell a ha
    rw [st.next_setPrev _ _ _ _ hqc hac, st.next_setNext_ne _ _ _ _ hpc hac hap]
  · intro a ha haq
    have hac := hcell a ha
    rw [st.prev_setPrev_ne _ _ _ _ hqc hac haq, st.prev_setNext _ _ _ _ hpc hac]

theorem Rep.getfirst_nil [DecidableEq α] (h : Rep st s root []) :
    listGetfirst st s root = (none, s) := by
  rw [listGetfirst, if_pos (h.isempty_iff.mpr rfl)]

theorem Rep.getfirst_cons [DecidableEq α] {x : α} {xs : List α}
    (h : Rep st s root (x :: xs)) :
    listGetfirst st s root = (some x, listUnlink st s x) := by
  have hfirst : st.next s root = x := h.ring.next_root
  have hne : ¬ listIsempty st s root = true := by
    rw [h.isempty_iff]
    simp
  rw [listGetfirst, if_neg hne, hfirst]

theorem Rep.getlast_nil [DecidableEq α] (h : Rep st s root []) :
    listGetlast st s root = (none, s) := by
  rw [listGetlast, if_pos (h.isempty_iff.mpr rfl)]

theorem Rep.getlast_concat [DecidableEq α] {x : α} {xs : List α}
    (h : Rep st s root (xs ++ [x])) :
    listGetlast st s root = (some x, listUnlink st s x) := by
  have hlast : st.prev s root = x := by
    rw [h.ring.prev_root, List.getLast_cons (by simp), List.getLast_concat]
  have hne : ¬ listIsempty st s root = true := by
    rw [h.isempty_iff]
    simp
  rw [listGetlast, if_neg hne, hlast]

/-! ### What an operation leaves alone -/

/-- The links of another cell. -/
theorem outside_links {a c : α} (ha : st.IsCell a) (hc : st.IsCell c) (hne : c ≠ a) :
    Outside st (fun s => (st.next s c, st.prev s c)) a where
  setNext s v := by
    simp only [st.next_setNext_ne s a c v ha hc hne, st.prev_setNext s a c v ha hc]
  setPrev s v := by
    simp only [st.prev_setPrev_ne s a c v ha hc hne, st.next_setPrev s a c v ha hc]

theorem Rep.addAfter_touches {ys zs : List α} {p item : α} (h : Rep st s root (ys ++ zs))
    (hp : (root :: ys).getLast (by simp) = p) (hitem : st.IsCell item)
    (hnew : item ∉ root :: (ys ++ zs)) :
    Touches st (item :: root :: (ys ++ zs)) s (listAddfirst st s p item) := by
  intro β f hf
  obtain ⟨hpmem, hqmem⟩ := h.ring.cut_mem hp
  have hip : item ≠ p := fun e => hnew (e ▸ hpmem)
  have hfi := hf item (by simp)
  have hfp := hf p (List.mem_cons_of_mem _ hpmem)
  have hfq := hf _ (List.mem_cons_of_mem _ hqmem)
  rw [addfirst_eq (h.cells p hpmem) hitem hip, hfp.setNext, hfq.setPrev, hfi.setPrev,
    hfi.setNext]

theorem Rep.addfirst_touches {xs : List α} {item : α} (h : Rep st s root xs)
    (hitem : st.IsCell item) (hnew : item ∉ root :: xs) :
    Touches st (item :: root :: xs) s (listAddfirst st s root item) := by
  have h₀ : Rep st s root ([] ++ xs) := h
  exact h₀.addAfter_touches rfl hitem hnew

theorem Rep.addlast_touches {xs : List α} {item : α} (h : Rep st s root xs)
    (hitem : st.IsCell item) (hnew : item ∉ root :: xs) :
    Touches st (item :: root :: xs) s (listAddlast st s root item) := by
  have h₀ : Rep st s root (xs ++ []) := by simpa using h
  have hadd := h₀.addAfter_touches rfl hitem (by simpa using hnew)
  rw [listAddlast, h.ring.prev_root]
  simpa using hadd

theorem Rep.unlink_touches {ys zs : List α} {item : α} (h : Rep st s root (ys ++ item :: zs)) :
    Touches st (root :: (ys ++ zs)) s (listUnlink st s item) := by
  intro β f hf
  obtain ⟨hpmem, hqmem, hdef⟩ := h.unlink_eq
  rw [hdef, (hf _ hqmem).setPrev, (hf _ hpmem).setNext]

/-- A list none of whose cells is written. -/
theorem Touches.rep {X : List α} {s' : σ} {r : α} {xs : List α} (h : Touches st X s s')
    (hrep : Rep st s r xs) (hX : ∀ a ∈ X, st.IsCell a)
    (hdisj : ∀ a ∈ X, ∀ c ∈ r :: xs, c ≠ a) : Rep st s' r xs :=
  hrep.other fun c hc => h _ _ fun a ha =>
    outside_links (hX a ha) (hrep.cells c hc) (hdisj a ha c hc)

/-! ### Sorted insertion -/

/-- The loop stops at the first item of `todo` that does not compare below the
new one, or at the root. -/
theorem addsortLoop_spec [DecidableEq α] (cmp : α → α → Int) {item : α}
    (hitem : st.IsCell item) : ∀ (todo passed : List α) (fuel : Nat), todo.length < fuel →
      Rep st s root (passed ++ todo) → item ∉ root :: (passed ++ todo) →
      ∃ ys zs s', todo = ys ++ zs ∧ (∀ y ∈ ys, cmp y item < 0) ∧
        (∀ z ∈ zs.head?, 0 ≤ cmp z item) ∧
        addsortLoop st cmp root item fuel s ((todo ++ [root]).head (by simp)) = some s' ∧
        Rep st s' root (passed ++ ys ++ item :: zs) ∧
        Touches st (item :: root :: (passed ++ todo)) s s' := by
  intro todo
  induction todo with
  | nil =>
    intro passed fuel hfuel hrep hnew
    obtain ⟨n, rfl⟩ : ∃ n, fuel = n + 1 := ⟨fuel - 1, by simp at hfuel; omega⟩
    rw [List.append_nil] at hrep hnew
    refine ⟨[], [], listAddlast st s root item, rfl, by simp, by simp, by simp [addsortLoop],
      ?_, ?_⟩
    · simpa using hrep.addlast hitem hnew
    · simpa using hrep.addlast_touches hitem hnew
  | cons x rest ih =>
    intro passed fuel hfuel hrep hnew
    obtain ⟨n, rfl⟩ : ∃ n, fuel = n + 1 := ⟨fuel - 1, by simp at hfuel; omega⟩
    have hxr : x ≠ root := by
      rintro rfl
      exact hrep.not_mem (by simp)
    by_cases hx : 0 ≤ cmp x item
    · refine ⟨[], x :: rest, listAddlast st s x item, rfl, by simp, by simpa using hx, ?_, ?_, ?_⟩
      · simp [addsortLoop, hxr, hx]
      · rw [listAddlast, hrep.ring.prev_mem]
        simpa using Rep.addAfter hrep rfl hitem hnew
      · rw [listAddlast, hrep.ring.prev_mem]
        exact Rep.addAfter_touches hrep rfl hitem hnew
    · have hsplit : passed ++ x :: rest = (passed ++ [x]) ++ rest := by simp
      obtain ⟨ys, zs, s', htodo, hys, hzs, hloop, hrep', htouch⟩ := ih (passed ++ [x]) n
        (by simp at hfuel; omega) (hsplit ▸ hrep) (hsplit ▸ hnew)
      refine ⟨x :: ys, zs, s', by rw [htodo]; rfl, ?_, hzs, ?_, ?_, ?_⟩
      · intro y hy
        rcases List.mem_cons.mp hy with rfl | hy
        · omega
        · exact hys y hy
      · have hnext : st.next s x = (rest ++ [root]).head (by simp) := hrep.ring.next_mem
        simp only [List.cons_append, List.head_cons, addsortLoop, hxr, if_false, hx, hnext]
        exact hloop
      · simpa using hrep'
      · rw [hsplit]
        exact htouch

theorem Rep.addsort [DecidableEq α] {item : α} {xs : List α} {fuel : Nat}
    (h : Rep st s root xs) (cmp : α → α → Int) (hitem : st.IsCell item) (hnew : item ∉ root :: xs)
    (hfuel : xs.length < fuel) :
    ∃ ys zs s', xs = ys ++ zs ∧ (∀ y ∈ ys, cmp y item < 0) ∧ (∀ z ∈ zs.head?, 0 ≤ cmp z item) ∧
      listAddsort st fuel cmp s root item = some s' ∧ Rep st s' root (ys ++ item :: zs) ∧
      Touches st (item :: root :: xs) s s' := by
  have hspec := addsortLoop_spec cmp hitem xs [] fuel hfuel h hnew
  rw [listAddsort, h.ring.next_root]
  simpa using hspec

/-! ### Iteration -/

/-- The loop rule of `list_foreach`, for a body that keeps the current item or
takes it out of the list.  `kept` are the items passed so far that are still
there, and `I` relates them, the items to come and the state. -/
theorem foreachLoop_spec [DecidableEq α] (body : σ → α → σ)
    {I : List α → List α → σ → Prop}
    (hbody : ∀ kept x rest s, Rep st s root (kept ++ x :: rest) → I kept (x :: rest) s →
      ∃ kept', Rep st (body s x) root (kept' ++ rest) ∧ I kept' rest (body s x)) :
    ∀ (todo kept : List α) (fuel : Nat) (s : σ), todo.length < fuel →
      Rep st s root (kept ++ todo) → I kept todo s →
      ∃ s' kept', foreachLoop st body root fuel s ((todo ++ [root]).head (by simp))
          (st.next s ((todo ++ [root]).head (by simp))) = some s' ∧
        Rep st s' root kept' ∧ I kept' [] s' := by
  intro todo
  induction todo with
  | nil =>
    intro kept fuel s hfuel hrep hI
    obtain ⟨n, rfl⟩ : ∃ n, fuel = n + 1 := ⟨fuel - 1, by simp at hfuel; omega⟩
    exact ⟨s, kept, by simp [foreachLoop], by simpa using hrep, hI⟩
  | cons x rest ih =>
    intro kept fuel s hfuel hrep hI
    obtain ⟨n, rfl⟩ : ∃ n, fuel = n + 1 := ⟨fuel - 1, by simp at hfuel; omega⟩
    have hxr : x ≠ root := by
      rintro rfl
      exact hrep.not_mem (by simp)
    obtain ⟨kept', hrep', hI'⟩ := hbody kept x rest s hrep hI
    obtain ⟨s', kept'', hloop, hrep'', hI''⟩ :=
      ih kept' n (body s x) (by simp at hfuel; omega) hrep' hI'
    refine ⟨s', kept'', ?_, hrep'', hI''⟩
    -- the link followed after the body was read before it
    have hnext : st.next s x = (rest ++ [root]).head (by simp) := hrep.ring.next_mem
    simp only [List.cons_append, List.head_cons, foreachLoop, hxr, if_false, hnext]
    exact hloop

theorem foreachLoop_keeps {σ α β : Type} [DecidableEq α] {st : CellStore σ α} {f : σ → β}
    {body : σ → α → σ} (hbody : ∀ s x, f (body s x) = f s) {root : α} (fuel : Nat) {s s' : σ}
    {item nxt : α} (h : foreachLoop st body root fuel s item nxt = some s') : f s' = f s := by
  induction fuel generalizing s item nxt with
  | zero => simp [foreachLoop] at h
  | succ fuel ih =>
    unfold foreachLoop at h
    split at h
    · rw [← Option.some.inj h]
    · rw [ih h, hbody]

theorem listForeach_spec [DecidableEq α] (body : σ → α → σ)
    {I : List α → List α → σ → Prop} {xs : List α} {fuel : Nat}
    (h : Rep st s root xs) (hfuel : xs.length < fuel) (hI : I [] xs s)
    (hbody : ∀ kept x rest s, Rep st s root (kept ++ x :: rest) → I kept (x :: rest) s →
      ∃ kept', Rep st (body s x) root (kept' ++ rest) ∧ I kept' rest (body s x)) :
    ∃ s' kept', listForeach st fuel body s root = some s' ∧
      Rep st s' root kept' ∧ I kept' [] s' := by
  have hspec := foreachLoop_spec body hbody xs [] fuel s hfuel h hI
  rw [listForeach, h.ring.next_root]
  exact hspec

/-! ### Searching -/

/-- The search by links that lead through `xs` to the root finds the first item of `xs`
that is searched for. -/
theorem searchLoop_spec [DecidableEq α] {link : α → α} (found : α → Bool) :
    ∀ (xs : List α) (fuel : Nat), xs.length < fuel → root ∉ xs →
      (∀ ys x zs, xs = ys ++ x :: zs → link x = (zs ++ [root]).head (by simp)) →
      searchLoop link found root fuel ((xs ++ [root]).head (by simp))
        (link ((xs ++ [root]).head (by simp))) = some (xs.find? found) := by
  intro xs
  induction xs with
  | nil =>
    intro fuel hfuel _ _
    obtain ⟨n, rfl⟩ : ∃ n, fuel = n + 1 := ⟨fuel - 1, by simp at hfuel; omega⟩
    simp [searchLoop]
  | cons x rest ih =>
    intro fuel hfuel hroot hlink
    obtain ⟨n, rfl⟩ : ∃ n, fuel = n + 1 := ⟨fuel - 1, by simp at hfuel; omega⟩
    have hxr : x ≠ root := fun e => hroot (by simp [e])
    have hnext : link x = (rest ++ [root]).head (by simp) := hlink [] x rest rfl
    simp only [List.cons_append, List.head_cons, searchLoop, hxr, if_false, hnext]
    rw [List.find?_cons]
    cases hx : found x with
    | true => simp
    | false =>
      simp only [Bool.false_eq_true, if_false]
      refine ih n (by simp at hfuel; omega) (fun h => hroot (by simp [h])) ?_
      intro ys y zs hys
      exact hlink (x :: ys) y zs (by rw [hys]; rfl)

theorem Rep.search [DecidableEq α] {xs : List α} {fuel : Nat} (h : Rep st s root xs)
    (hfuel : xs.length < fuel) (found : α → Bool) :
    listSearch st fuel found s root = some (xs.find? found) := by
  rw [listSearch, h.ring.next_root]
  refine searchLoop_spec found xs fuel hfuel h.not_mem ?_
  rintro ys x zs rfl
  exact h.ring.next_mem

theorem Rep.searchRev [DecidableEq α] {xs : List α} {fuel : Nat} (h : Rep st s root xs)
    (hfuel : xs.length < fuel) (found : α → Bool) :
    listSearchRev st fuel found s root = some (xs.reverse.find? found) := by
  have hhead : ∀ l : List α, (root :: l).getLast (by simp) = (l.reverse ++ [root]).head (by simp) := by
    intro l
    rw [List.getLast_eq_head_reverse]
    simp
  rw [listSearchRev, h.ring.prev_root, hhead]
  refine searchLoop_spec found xs.reverse fuel (by simpa using hfuel)
    (by simpa using h.not_mem) ?_
  intro ys x zs hys
  have hxs : xs = zs.reverse ++ x :: ys.reverse := by
    rw [← List.reverse_reverse xs, hys]
    simp
  subst hxs
  rw [h.ring.prev_mem, hhead]
  simp

end

end Ko6.Common
