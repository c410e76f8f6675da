import Ko6.Common.Lists

set_option autoImplicit false

/-!
# Common: the intrusive lists are sequences

What the functions of `common/list.h` do to a well-formed list, said once for all
of them: the sequence that the list represents afterwards, the cells that were
written, and that every list without one of these cells is what it was.  The
functions that the allocators do not use, `list_replace` and `list_nbobj`, are
modelled here.
-/

namespace Ko6.Common

open Ko6.Lib

/-! ## Model -/

section
variable {σ α : Type} (st : CellStore σ α)

/-- `list_replace`. -/
def listReplace (s : σ) (oldItem newItem : α) : σ :=
  let s := st.setNext s (st.prev s oldItem) newItem
  let s := st.setPrev s (st.next s oldItem) newItem
  let s := st.setNext s newItem (st.next s oldItem)
  let s := st.setPrev s newItem (st.prev s oldItem)
  listInit st s oldItem

/-- The loop of `list_nbobj`, over the links `link` of a state that does not change. -/
def nbobjLoop [DecidableEq α] (link : α → α) (root : α) :
    Nat → BitVec 32 → α → α → Option (BitVec 32)
  | 0, _, _, _ => none
  | n + 1, nbobj, item, nxt =>
    if item = root then some nbobj
    else nbobjLoop link root n (nbobj + 1) nxt (link nxt)

/-- `list_nbobj`; a `size_t` has 32 bits. -/
def listNbobj [DecidableEq α] (fuel : Nat) (s : σ) (root : α) : Option (BitVec 32) :=
  let item := st.next s root
  nbobjLoop (st.next s) root fuel 0 item (st.next s item)

end

/-- The two links of every cell. -/
structure ListHeap (α : Type) where
  next : α → α
  prev : α → α

/-- A heap in which every address is a cell. -/
def heapCells (α : Type) [DecidableEq α] : CellStore (ListHeap α) α where
  IsCell _ := True
  next s a := s.next a
  prev s a := s.prev a
  setNext s a v := { s with next := Function.update s.next a v }
  setPrev s a v := { s with prev := Function.update s.prev a v }
  next_setNext _ _ _ _ _ := Function.update_self ..
  next_setNext_ne _ _ _ _ _ _ hne := Function.update_of_ne hne ..
  prev_setNext _ _ _ _ _ _ := rfl
  prev_setPrev _ _ _ _ _ := Function.update_self ..
  prev_setPrev_ne _ _ _ _ _ _ hne := Function.update_of_ne hne ..
  next_setPrev _ _ _ _ _ _ := rfl

/-! ## Replacement -/

section
variable {σ α : Type} {st : CellStore σ α} {s : σ} {root : α}

/-- `list_replace` of a member, with its reads of the old item resolved: none of the
writes before `list_init` is to that item. -/
theorem Rep.replace_eq {ys zs : List α} {old new : α} (h : Rep st s root (ys ++ old :: zs))
    (hcell : st.IsCell new) (hnew : new ∉ root :: (ys ++ old :: zs)) :
    listReplace st s old new = listInit st (st.setPrev (st.setNext (st.setPrev (st.setNext s
      (st.prev s old) new) (st.next s old) new) new (st.next s old)) new (st.prev s old)) old := by
  obtain ⟨hpmem, hqmem, -⟩ := h.unlink_eq
  have hold : st.IsCell old := h.cells old (by simp)
  have hpc := h.cells_rest _ hpmem
  have hqc := h.cells_rest _ hqmem
  have hop : old ≠ st.prev s old := fun e => h.not_mem_rest (e ▸ hpmem)
  have hoq : old ≠ st.next s old := fun e => h.not_mem_rest (e ▸ hqmem)
  have hon : old ≠ new := by
    rintro rfl
    exact hnew (by simp)
  have hread₁ : st.next (st.setNext s (st.prev s old) new) old = st.next s old :=
    st.next_setNext_ne _ _ _ _ hpc hold hop
  have hread₂ : st.next (st.setPrev (st.setNext s (st.prev s old) new) (st.next s old) new) old
      = st.next s old := by
    rw [st.next_setPrev _ _ _ _ hqc hold, hread₁]
  have hread₃ : st.prev (st.setNext (st.setPrev (st.setNext s (st.prev s old) new)
      (st.next s old) new) new (st.next s old)) old = st.prev s old := by
    rw [st.prev_setNext _ _ _ _ hcell hold, st.prev_setPrev_ne _ _ _ _ hqc hold hoq,
      st.prev_setNext _ _ _ _ hpc hold]
  simp only [listReplace, hread₁, hread₂, hread₃]

/-- The new item stands where the old one was. -/
theorem Rep.replace {ys zs : List α} {old new : α} (h : Rep st s root (ys ++ old :: zs))
    (hcell : st.IsCell new) (hnew : new ∉ root :: (ys ++ old :: zs)) :
    Rep st (listReplace st s old new) root (ys ++ new :: zs) := by
  obtain ⟨hpmem, hqmem, -⟩ := h.unlink_eq
  have hold : st.IsCell old := h.cells old (by simp)
  have hpc := h.cells_rest _ hpmem
  have hqc := h.cells_rest _ hqmem
  have hrest : ∀ a ∈ root :: (ys ++ zs), a ≠ old ∧ a ≠ new := by
    intro a ha
    refine ⟨?_, ?_⟩
    · rintro rfl
      exact h.not_mem_rest ha
    · rintro rfl
      refine hnew ?_
      simp only [List.mem_cons, List.mem_append] at ha ⊢
      tauto
  obtain ⟨hpo, hpn⟩ := hrest _ hpmem
  obtain ⟨hqo, hqn⟩ := hrest _ hqmem
  have hno : new ≠ old := by
    rintro rfl
    exact hnew (by simp)
  rw [h.replace_eq hcell hnew]
  refine ⟨h.ring.replace hnew ?_ ?_ ?_ ?_ ?_ ?_, ?_⟩
  · rw [listInit, st.next_setNext_ne _ _ _ _ hold hpc hpo, st.next_setPrev _ _ _ _ hold hpc,
      st.next_setPrev _ _ _ _ hcell hpc, st.next_setNext_ne _ _ _ _ hcell hpc hpn,
      st.next_setPrev _ _ _ _ hqc hpc, st.next_setNext _ _ _ hpc hcell]
  · rw [listInit, st.prev_setNext _ _ _ _ hold hcell, st.prev_setPrev_ne _ _ _ _ hold hcell hno,
      st.prev_setPrev _ _ _ hcell hpc]
  · rw [listInit, st.next_setNext_ne _ _ _ _ hold hcell hno, st.next_setPrev _ _ _ _ hold hcell,
      st.next_setPrev _ _ _ _ hcell hcell, st.next_setNext _ _ _ hcell hqc]
  · rw [listInit, st.prev_setNext _ _ _ _ hold hqc, st.prev_setPrev_ne _ _ _ _ hold hqc hqo,
      st.prev_setPrev_ne _ _ _ _ hcell hqc hqn, st.prev_setNext _ _ _ _ hcell hqc,
      st.prev_setPrev _ _ _ hqc hcell]
  · intro a ha hap
    have hac := h.cells_rest a ha
    rw [listInit, st.next_setNext_ne _ _ _ _ hold hac (hrest a ha).1,
      st.next_setPrev _ _ _ _ hold hac, st.next_setPrev _ _ _ _ hcell hac,
      st.next_setNext_ne _ _ _ _ hcell hac (hrest a ha).2, st.next_setPrev _ _ _ _ hqc hac,
      st.next_setNext_ne _ _ _ _ hpc hac hap]
  · intro a ha haq
    have hac := h.cells_rest a ha
    rw [listInit, st.prev_setNext _ _ _ _ hold hac,
      st.prev_setPrev_ne _ _ _ _ hold hac (hrest a ha).1,
      st.prev_setPrev_ne _ _ _ _ hcell hac (hrest a ha).2, st.prev_setNext _ _ _ _ hcell hac,
      st.prev_setPrev_ne _ _ _ _ hqc hac haq, st.prev_setNext _ _ _ _ hpc hac]
  · intro a ha
    simp only [List.mem_cons, List.mem_append] at ha
    rcases ha with rfl | ha | rfl | ha
    · exact h.cells a (by simp)
    · exact h.cells a (by simp [ha])
    · exact hcell
    · exact h.cells a (by simp [ha])

/-- The old item is left as an empty list. -/
theorem Rep.replace_old {ys zs : List α} {old new : α} (h : Rep st s root (ys ++ old :: zs))
    (hcell : st.IsCell new) (hnew : new ∉ root :: (ys ++ old :: zs)) :
    Rep st (listReplace st s old new) old [] := by
  rw [h.replace_eq hcell hnew]
  exact rep_init (h.cells old (by simp))

theorem Rep.replace_touches {ys zs : List α} {old new : α} (h : Rep st s root (ys ++ old :: zs))
    (hcell : st.IsCell new) (hnew : new ∉ root :: (ys ++ old :: zs)) :
    Touches st (new :: root :: (ys ++ old :: zs)) s (listReplace st s old new) := by
  intro β f hf
  obtain ⟨hpmem, hqmem, -⟩ := h.unlink_eq
  have hsub : ∀ a ∈ root :: (ys ++ zs), Outside st f a := by
    intro a ha
    refine hf a ?_
    simp only [List.mem_cons, List.mem_append] at ha ⊢
    tauto
  have hfold := hf old (by simp)
  have hfnew := hf new (by simp)
  rw [h.replace_eq hcell hnew, listInit, hfold.setNext, hfold.setPrev, hfnew.setPrev,
    hfnew.setNext, (hsub _ hqmem).setPrev, (hsub _ hpmem).setNext]

/-! ## Counting -/

/-- The loop by links that lead through `xs` to the root counts its items. -/
theorem nbobjLoop_spec [DecidableEq α] (link : α → α) :
    ∀ (xs : List α) (fuel : Nat) (k : BitVec 32), xs.length < fuel → root ∉ xs →
      (∀ ys x zs, xs = ys ++ x :: zs → link x = (zs ++ [root]).head (by simp)) →
      nbobjLoop link root fuel k ((xs ++ [root]).head (by simp))
        (link ((xs ++ [root]).head (by simp))) = some (k + BitVec.ofNat 32 xs.length) := by
  intro xs
  induction xs with
  | nil =>
    intro fuel k hfuel _ _
    obtain ⟨n, rfl⟩ : ∃ n, fuel = n + 1 := ⟨fuel - 1, by simp at hfuel; omega⟩
    simp [nbobjLoop]
  | cons x rest ih =>
    intro fuel k hfuel hroot hlink
    obtain ⟨n, rfl⟩ : ∃ n, fuel = n + 1 := ⟨fuel - 1, by simp at hfuel; omega⟩
    have hxr : x ≠ root := fun e => hroot (by simp [e])
    have hnext : link x = (rest ++ [root]).head (by simp) := hlink [] x rest rfl
    simp only [List.cons_append, List.head_cons, nbobjLoop, hxr, if_false, hnext]
    rw [ih n (k + 1) (by simp at hfuel; omega) (fun h => hroot (by simp [h])) ?_]
    · rw [List.length_cons, Nat.add_comm rest.length 1, BitVec.ofNat_add, BitVec.add_assoc]
      rfl
    · intro ys y zs hys
      exact hlink (x :: ys) y zs (by rw [hys]; rfl)

theorem Rep.nbobj [DecidableEq α] {xs : List α} {fuel : Nat} (h : Rep st s root xs)
    (hfuel : xs.length < fuel) :
    listNbobj st fuel s root = some (BitVec.ofNat 32 xs.length) := by
  rw [listNbobj, h.ring.next_root]
  have hspec := nbobjLoop_spec (st.next s) xs fuel 0 hfuel h.not_mem ?_
  · rw [hspec]
    simp
  · rintro ys x zs rfl
    exact h.ring.next_mem

/-- Cells with distinct 32-bit addresses are few enough for the counter. -/
theorem Rep.length_lt {xs : List α} (h : Rep st s root xs) (addr : α → BitVec 32)
    (haddr : Function.Injective addr) : xs.length < 2 ^ 32 := by
  have hnd : ((root :: xs).map fun a => (addr a).toFin).Nodup := by
    refine h.ring.nodup.map fun a b hab => haddr ?_
    exact BitVec.eq_of_toFin_eq hab
  have hlen := hnd.length_le_card
  rw [List.length_map, List.length_cons, Fintype.card_fin] at hlen
  omega

/-! ## Sorted lists -/

/-- `cmp` compares the items of `l` as a difference of values does. -/
structure Compares (cmp : α → α → Int) (l : List α) : Prop where
  flip : ∀ a ∈ l, ∀ b ∈ l, 0 ≤ cmp a b → cmp b a ≤ 0
  trans : ∀ a ∈ l, ∀ b ∈ l, ∀ c ∈ l, cmp a b ≤ 0 → cmp b c ≤ 0 → cmp a c ≤ 0

/-- The items are in increasing order. -/
def Sorted (cmp : α → α → Int) (l : List α) : Prop := l.Pairwise fun a b => cmp a b ≤ 0

/-- The new item stands behind the items below it and in front of one that is not. -/
theorem sorted_insert {cmp : α → α → Int} {ys zs : List α} {item : α}
    (hcmp : Compares cmp (item :: (ys ++ zs))) (hsorted : Sorted cmp (ys ++ zs))
    (hys : ∀ y ∈ ys, cmp y item < 0) (hzs : ∀ z ∈ zs.head?, 0 ≤ cmp z item) :
    Sorted cmp (ys ++ item :: zs) := by
  obtain ⟨hsy, hsz, hsyz⟩ := List.pairwise_append.mp hsorted
  have hbelow : ∀ z ∈ zs, cmp item z ≤ 0 := by
    cases zs with
    | nil => exact fun z hz => absurd hz List.not_mem_nil
    | cons z₀ zs =>
      have hfirst : cmp item z₀ ≤ 0 :=
        hcmp.flip z₀ (by simp) item (by simp) (hzs z₀ rfl)
      intro z hz
      rcases List.mem_cons.mp hz with rfl | hz
      · exact hfirst
      · exact hcmp.trans item (by simp) z₀ (by simp) z (by simp [hz]) hfirst
          ((List.pairwise_cons.mp hsz).1 z hz)
  refine List.pairwise_append.mpr ⟨hsy, List.pairwise_cons.mpr ⟨hbelow, hsz⟩, ?_⟩
  intro y hy z hz
  rcases List.mem_cons.mp hz with rfl | hz
  · exact Int.le_of_lt (hys y hy)
  · exact hsyz y hy z hz

/-! ## Iteration -/

/-- A body of `list_foreach (root, item)` that leaves the list as it is or takes the
current item out of it. -/
def KeepsOrUnlinks (st : CellStore σ α) (root : α) (body : σ → α → σ) : Prop :=
  ∀ kept x rest s, Rep st s root (kept ++ x :: rest) →
    Rep st (body s x) root (kept ++ x :: rest) ∨ Rep st (body s x) root (kept ++ rest)

/-- The body runs once for each item of the list as it was at first, in order. -/
theorem Rep.foreach [DecidableEq α] {xs : List α} {fuel : Nat} (h : Rep st s root xs)
    (hfuel : xs.length < fuel) {body : σ → α → σ} (hbody : KeepsOrUnlinks st root body) :
    listForeach st fuel body s root = some (xs.foldl body s) := by
  have hstep : ∀ kept x rest s', Rep st s' root (kept ++ x :: rest) →
      (∃ passed, xs = passed ++ x :: rest ∧ s' = passed.foldl body s) →
      ∃ kept', Rep st (body s' x) root (kept' ++ rest) ∧
        ∃ passed, xs = passed ++ rest ∧ body s' x = passed.foldl body s := by
    rintro kept x rest s' hrep ⟨passed, hxs, rfl⟩
    have hnext : ∃ passed', xs = passed' ++ rest ∧
        body (passed.foldl body s) x = passed'.foldl body s := by
      refine ⟨passed ++ [x], ?_, ?_⟩
      · rw [hxs, List.append_assoc, List.singleton_append]
      · rw [List.foldl_append, List.foldl_cons, List.foldl_nil]
    rcases hbody kept x rest _ hrep with hkeep | hunlink
    · exact ⟨kept ++ [x], by simpa using hkeep, hnext⟩
    · exact ⟨kept, hunlink, hnext⟩
  obtain ⟨s', kept, hloop, -, passed, hxs, hs'⟩ := listForeach_spec body
    (I := fun _ todo s' => ∃ passed, xs = passed ++ todo ∧ s' = passed.foldl body s)
    h hfuel ⟨[], rfl, rfl⟩ hstep
  rw [hloop, hs', hxs, List.append_nil]

/-! ## The refinement -/

/-- The step from `s` to `s'` makes the list at `root` represent `xs'`; links are written
in the cells `X` only. -/
structure Becomes (st : CellStore σ α) (s s' : σ) (root : α) (X xs' : List α) : Prop where
  rep : Rep st s' root xs'
  links : ∀ c, st.IsCell c → c ∉ X → st.next s' c = st.next s c ∧ st.prev s' c = st.prev s c
  others : ∀ r ys, Rep st s r ys → (∀ c ∈ r :: ys, c ∉ X) → Rep st s' r ys

theorem Touches.becomes {s' : σ} {X Y xs' : List α} (h : Touches st X s s')
    (hrep : Rep st s' root xs') (hXY : ∀ a ∈ X, a ∈ Y) (hY : ∀ a ∈ Y, st.IsCell a) :
    Becomes st s s' root Y xs' where
  rep := hrep
  links c hc hcY := by
    have hlinks := h _ (fun s => (st.next s c, st.prev s c)) fun a ha =>
      outside_links (hY a (hXY a ha)) hc fun e => hcY (e ▸ hXY a ha)
    exact ⟨congrArg Prod.fst hlinks, congrArg Prod.snd hlinks⟩
  others r ys hr hdisj := by
    refine h.rep hr (fun a ha => hY a (hXY a ha)) ?_
    rintro a ha c hc rfl
    exact hdisj c hc (hXY c ha)

theorem Rep.becomes_unlink {ys zs : List α} {item : α} (h : Rep st s root (ys ++ item :: zs)) :
    Becomes st s (listUnlink st s item) root (root :: (ys ++ item :: zs)) (ys ++ zs) := by
  refine h.unlink_touches.becomes h.unlink ?_ h.cells
  intro a ha
  simp only [List.mem_cons, List.mem_append] at ha ⊢
  tauto

theorem Rep.becomes_self {xs : List α} (h : Rep st s root xs) :
    Becomes st s s root (root :: xs) xs :=
  Touches.refl.becomes h (fun _ ha => ha) h.cells

theorem Rep.becomes_getfirst [DecidableEq α] {xs : List α} (h : Rep st s root xs) :
    (listGetfirst st s root).1 = xs.head? ∧
      Becomes st s (listGetfirst st s root).2 root (root :: xs) xs.tail := by
  cases xs with
  | nil =>
    rw [h.getfirst_nil]
    exact ⟨rfl, h.becomes_self⟩
  | cons x xs =>
    have h₀ : Rep st s root ([] ++ x :: xs) := h
    rw [h.getfirst_cons]
    exact ⟨rfl, h₀.becomes_unlink⟩

theorem Rep.becomes_getlast [DecidableEq α] {xs : List α} (h : Rep st s root xs) :
    (listGetlast st s root).1 = xs.getLast? ∧
      Becomes st s (listGetlast st s root).2 root (root :: xs) xs.dropLast := by
  rcases List.eq_nil_or_concat xs with rfl | ⟨xs, x, rfl⟩
  · rw [h.getlast_nil]
    exact ⟨rfl, h.becomes_self⟩
  · rw [List.concat_eq_append] at h ⊢
    rw [h.getlast_concat, List.getLast?_concat, List.dropLast_concat]
    refine ⟨rfl, ?_⟩
    simpa using h.becomes_unlink

theorem Rep.becomes_addsort [DecidableEq α] {xs : List α} {fuel : Nat} (h : Rep st s root xs)
    (hfuel : xs.length < fuel) {cmp : α → α → Int} {item : α} (hitem : st.IsCell item)
    (hnew : item ∉ root :: xs) (hcmp : Compares cmp (item :: xs)) (hsorted : Sorted cmp xs) :
    ∃ s' xs', listAddsort st fuel cmp s root item = some s' ∧
      Becomes st s s' root (item :: root :: xs) xs' ∧ xs'.Perm (item :: xs) ∧ Sorted cmp xs' := by
  obtain ⟨ys, zs, s', rfl, hys, hzs, hadd, hrep, htouch⟩ := h.addsort cmp hitem hnew hfuel
  refine ⟨s', ys ++ item :: zs, hadd, htouch.becomes hrep (fun _ ha => ha) ?_,
    List.perm_middle, sorted_insert hcmp hsorted hys hzs⟩
  intro a ha
  rcases List.mem_cons.mp ha with rfl | ha
  · exact hitem
  · exact h.cells a ha

end

/-- The functions of `list.h` on a well-formed list do to its sequence what their names
say, write no cell of another list, and `list_foreach` passes every item once. -/
theorem lists_refine_sequences {σ α : Type} [DecidableEq α] (st : CellStore σ α) {s : σ}
    {root : α} {xs : List α} {fuel : Nat} (h : Rep st s root xs) (hfuel : xs.length < fuel) :
    (∀ item, st.IsCell item → item ∉ root :: xs →
      Becomes st s (listAddfirst st s root item) root (item :: root :: xs) (item :: xs)) ∧
    (∀ item, st.IsCell item → item ∉ root :: xs →
      Becomes st s (listAddlast st s root item) root (item :: root :: xs) (xs ++ [item])) ∧
    (∀ ys item zs, xs = ys ++ item :: zs →
      Becomes st s (listUnlink st s item) root (root :: xs) (ys ++ zs)) ∧
    ((listGetfirst st s root).1 = xs.head? ∧
      Becomes st s (listGetfirst st s root).2 root (root :: xs) xs.tail) ∧
    ((listGetlast st s root).1 = xs.getLast? ∧
      Becomes st s (listGetlast st s root).2 root (root :: xs) xs.dropLast) ∧
    (∀ ys old zs new, xs = ys ++ old :: zs → st.IsCell new → new ∉ root :: xs →
      Becomes st s (listReplace st s old new) root (new :: root :: xs) (ys ++ new :: zs) ∧
      Rep st (listReplace st s old new) old []) ∧
    (∃ nbobj, listNbobj st fuel s root = some nbobj ∧ nbobj = BitVec.ofNat 32 xs.length ∧
      ∀ addr : α → BitVec 32, Function.Injective addr → nbobj.toNat = xs.length) ∧
    (∀ cmp item, st.IsCell item → item ∉ root :: xs → Compares cmp (item :: xs) →
      Sorted cmp xs → ∃ s' xs', listAddsort st fuel cmp s root item = some s' ∧
        Becomes st s s' root (item :: root :: xs) xs' ∧ xs'.Perm (item :: xs) ∧
        Sorted cmp xs') ∧
    (∀ body, KeepsOrUnlinks st root body →
      listForeach st fuel body s root = some (xs.foldl body s)) := by
  have hcells : ∀ {item}, st.IsCell item → ∀ a ∈ item :: root :: xs, st.IsCell a := by
    intro item hitem a ha
    rcases List.mem_cons.mp ha with rfl | ha
    · exact hitem
    · exact h.cells a ha
  refine ⟨?_, ?_, ?_, h.becomes_getfirst, h.becomes_getlast, ?_, ?_, ?_, ?_⟩
  · intro item hitem hnew
    exact (h.addfirst_touches hitem hnew).becomes (h.addfirst hitem hnew) (fun _ ha => ha)
      (hcells hitem)
  · intro item hitem hnew
    exact (h.addlast_touches hitem hnew).becomes (h.addlast hitem hnew) (fun _ ha => ha)
      (hcells hitem)
  · rintro ys item zs rfl
    exact h.becomes_unlink
  · rintro ys old zs new rfl hcell hnew
    exact ⟨(h.replace_touches hcell hnew).becomes (h.replace hcell hnew) (fun _ ha => ha)
      (hcells hcell), h.replace_old hcell hnew⟩
  · refine ⟨_, h.nbobj hfuel, rfl, fun addr haddr => ?_⟩
    rw [BitVec.toNat_ofNat]
    exact Nat.mod_eq_of_lt (h.length_lt addr haddr)
  · intro cmp item hitem hnew hcmp hsorted
    exact h.becomes_addsort hfuel hitem hnew hcmp hsorted
  · intro body hbody
    exact h.foreach hfuel hbody

/-- The items 1 and 2 in a list at 0; a third one comes behind them, and the loop that
unlinks item 1 still passes item 2. -/
theorem lists_refine_sequences_two :
    ∃ s : ListHeap Nat, Rep (heapCells Nat) s 0 [1, 2] ∧
      (∃ s' xs', listAddsort (heapCells Nat) 3 (fun a b : Nat => (a : Int) - b) s 0 3 = some s' ∧
        Becomes (heapCells Nat) s s' 0 [3, 0, 1, 2] xs' ∧ xs'.Perm [3, 1, 2] ∧
        Sorted (fun a b : Nat => (a : Int) - b) xs') ∧
      listForeach (heapCells Nat) 3
        (fun s x => if x = 1 then listUnlink (heapCells Nat) s x else s) s 0
        = some ([1, 2].foldl
          (fun s x => if x = 1 then listUnlink (heapCells Nat) s x else s) s) := by
  have hrep : Rep (heapCells Nat) ⟨fun a => (a + 1) % 3, fun a => (a + 2) % 3⟩ 0 [1, 2] := by
    refine ⟨⟨?_, by decide⟩, fun _ _ => trivial⟩
    simp [Linked, heapCells]
  obtain ⟨-, -, -, -, -, -, -, hsort, hforeach⟩ :=
    lists_refine_sequences (heapCells Nat) hrep (show [1, 2].length < 3 by decide)
  refine ⟨_, hrep, hsort _ 3 trivial (by decide) ⟨?_, ?_⟩ ?_, hforeach _ ?_⟩
  · intro a _ b _ hab
    omega
  · intro a _ b _ c _ hab hbc
    omega
  · exact List.pairwise_pair.mpr (by decide)
  · intro kept x rest s hs
    by_cases hx : x = 1
    · exact .inr (by simpa [hx] using (hx ▸ hs).unlink)
    · exact .inl (by simpa [hx] using hs)

end Ko6.Common
