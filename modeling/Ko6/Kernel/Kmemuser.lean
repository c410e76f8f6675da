import Ko6.Lib.Mem
import Ko6.Lib.Round
import Ko6.Common.Lists

set_option autoImplicit false

/-!
# Kernel: the user stacks of `kernel/kmemuser.c`

The stacks of the user threads are areas of `USTACK_SIZE` bytes at the top of the
user memory, from `ustack_beg` downwards.  A stack that is given back is kept in
`FreeUserStack`, in the order of the addresses, with its `list_t` in its lowest
bytes; when the lowest stack is given back the region shrinks.

`UstackInv` says that the stacks in use and the free ones tile the region.  It
is kept by `malloc_ustack` and `free_ustack`, which is all that the threads need.
-/

namespace Ko6.Kernel

open Ko6.Lib Ko6.Common

/-- `USTACK_SIZE`. -/
abbrev ustackSize : Nat := 65536

/-- `MAGIC_STACK`. -/
def magicStack : BitVec 32 := 0xDEADF00D

/-- Where the stacks are: the address of `FreeUserStack`, the first address above
the stacks, and the lowest address of the user memory. -/
structure UserLayout where
  freeUserStack : Nat
  ustackBeg : Nat
  userLo : Nat
  lo_pos : ustackSize ≤ userLo
  region_lt : ustackBeg < userLo + 2 ^ 31
  root_outside : freeUserStack + 8 ≤ userLo ∨ ustackBeg ≤ freeUserStack
  beg_lt : ustackBeg < 2 ^ 32
  root_lt : freeUserStack + 8 < 2 ^ 32

/-- The user memory and the fields of `__usermem`. -/
structure Umem where
  mem : Mem
  ustackEnd : Nat
  uheapEnd : Nat

/-- The place of a stack. -/
def UserLayout.OnGrid (U : UserLayout) (e : Nat) : Prop :=
  U.userLo ≤ e ∧ e < U.ustackBeg ∧ ustackSize ∣ U.ustackBeg - e

/-- Two places do not overlap. -/
theorem UserLayout.OnGrid.apart {U : UserLayout} {d e : Nat} (hd : U.OnGrid d) (he : U.OnGrid e)
    (hne : d ≠ e) : d + ustackSize ≤ e ∨ e + ustackSize ≤ d := by
  obtain ⟨-, hd1, i, hi⟩ := hd
  obtain ⟨-, he1, j, hj⟩ := he
  simp only [ustackSize] at *
  omega

theorem UserLayout.OnGrid.room {U : UserLayout} {e : Nat} (he : U.OnGrid e) :
    e + ustackSize ≤ U.ustackBeg := by
  obtain ⟨-, he1, j, hj⟩ := he
  simp only [ustackSize] at *
  omega

/-- The cells: the root and the lowest bytes of the stacks. -/
def UserLayout.IsCell (U : UserLayout) (a : Nat) : Prop := a = U.freeUserStack ∨ U.OnGrid a

theorem UserLayout.IsCell.apart {U : UserLayout} {a b : Nat} (ha : U.IsCell a) (hb : U.IsCell b)
    (hne : a ≠ b) : a + 8 ≤ b ∨ b + 8 ≤ a := by
  have hroot := U.root_outside
  rcases ha with rfl | ha
  · rcases hb with rfl | hb
    · exact absurd rfl hne
    · have hroom := hb.room
      have hlo := hb.1
      simp only [ustackSize] at hroom
      omega
  · rcases hb with rfl | hb
    · have hroom := ha.room
      have hlo := ha.1
      simp only [ustackSize] at hroom
      omega
    · have hap := ha.apart hb hne
      simp only [ustackSize] at hap
      omega

theorem UserLayout.IsCell.fits {U : UserLayout} {a : Nat} (ha : U.IsCell a) : a < 2 ^ 32 := by
  have h1 := U.beg_lt
  have h2 := U.root_lt
  rcases ha with rfl | ha
  · omega
  · have := ha.2.1
    omega

section
variable {U : UserLayout} {a b v : Nat} (m : Mem) (w : BitVec 32)

theorem UserLayout.IsCell.readWord_writeWord (hv : U.IsCell v) (a : Nat) :
    ((m.writeWord a (BitVec.ofNat 32 v)).readWord a).toNat = v := by
  rw [Mem.readWord_writeWord, BitVec.toNat_ofNat]
  exact Nat.mod_eq_of_lt hv.fits

theorem UserLayout.IsCell.next_next (ha : U.IsCell a) (hb : U.IsCell b) (hne : b ≠ a) :
    (m.writeWord a w).readWord b = m.readWord b := by
  have hap := ha.apart hb hne.symm
  exact Mem.readWord_writeWord_of_disjoint (by omega)

theorem UserLayout.IsCell.prev_next (ha : U.IsCell a) (hb : U.IsCell b) :
    (m.writeWord a w).readWord (b + 4) = m.readWord (b + 4) := by
  have hap := ha.apart hb
  exact Mem.readWord_writeWord_of_disjoint (by omega)

theorem UserLayout.IsCell.prev_prev (ha : U.IsCell a) (hb : U.IsCell b) (hne : b ≠ a) :
    (m.writeWord (a + 4) w).readWord (b + 4) = m.readWord (b + 4) := by
  have hap := ha.apart hb hne.symm
  exact Mem.readWord_writeWord_of_disjoint (by omega)

theorem UserLayout.IsCell.next_prev (ha : U.IsCell a) (hb : U.IsCell b) :
    (m.writeWord (a + 4) w).readWord b = m.readWord b := by
  have hap := ha.apart hb
  exact Mem.readWord_writeWord_of_disjoint (by omega)

end

/-- The links of `FreeUserStack` in memory. -/
def ucells (U : UserLayout) : CellStore Umem Nat where
  IsCell := U.IsCell
  next u a := (u.mem.readWord a).toNat
  prev u a := (u.mem.readWord (a + 4)).toNat
  setNext u a v := { u with mem := u.mem.writeWord a (BitVec.ofNat 32 v) }
  setPrev u a v := { u with mem := u.mem.writeWord (a + 4) (BitVec.ofNat 32 v) }
  next_setNext u a _ _ hv := hv.readWord_writeWord u.mem a
  next_setNext_ne u _ _ _ ha hb hne := congrArg BitVec.toNat (ha.next_next u.mem _ hb hne)
  prev_setNext u _ _ _ ha hb := congrArg BitVec.toNat (ha.prev_next u.mem _ hb)
  prev_setPrev u a _ _ hv := hv.readWord_writeWord u.mem (a + 4)
  prev_setPrev_ne u _ _ _ ha hb hne := congrArg BitVec.toNat (ha.prev_prev u.mem _ hb hne)
  next_setPrev u _ _ _ ha hb := congrArg BitVec.toNat (ha.next_prev u.mem _ hb)

section
variable (U : UserLayout)

/-- `kmemuser_init`. -/
def kmemuserInit (u : Umem) : Umem := listInit (ucells U) u U.freeUserStack

/-- `*top = *end = MAGIC_STACK`. -/
def markStack (u : Umem) (top end_ : Nat) : Umem :=
  { u with mem := (u.mem.writeWord end_ magicStack).writeWord top magicStack }

/-- `malloc_ustack`: the word above the stack, or a panic. -/
def mallocUstack (u : Umem) : Option (Nat × Umem) :=
  let (last, u) := listGetlast (ucells U) u U.freeUserStack
  let stack : Option (Nat × Nat × Umem) :=
    match last with
    | none =>
      let top := u.ustackEnd
      let end_ := top - ustackSize
      if end_ < u.uheapEnd then none else some (top, end_, { u with ustackEnd := end_ })
    | some end_ => some (end_ + ustackSize, end_, u)
  stack.map fun (top, end_, u) =>
    let top := top - 4
    (top, markStack u top end_)

/-- `cmp_addr`: the difference of two `list_t *`, a signed 32-bit number of bytes,
in units of 8. -/
def cmpAddr (curr new : Nat) : Int :=
  (BitVec.ofNat 32 curr - BitVec.ofNat 32 new).toInt / 8

/-- The loop of `free_ustack` that shrinks the region over the free stacks at its
end. -/
def shrinkLoop : Nat → Umem → Nat → Nat → Option Umem
  | 0, _, _, _ => none
  | n + 1, u, stack, nxt =>
    if stack = U.freeUserStack then some u
    else if stack ≠ u.ustackEnd then some u
    else
      let (first, u) := listGetfirst (ucells U) u U.freeUserStack
      let u := { u with ustackEnd := first.getD 0 + ustackSize }
      shrinkLoop n u nxt ((ucells U).next u nxt)

/-- `free_ustack`. -/
def freeUstack (top : Nat) (u : Umem) : Option Umem :=
  let end_ := 4 + top - ustackSize
  if u.mem.readWord top ≠ magicStack then none
  else if u.mem.readWord end_ ≠ magicStack then none
  else if end_ = u.ustackEnd then
    let u := { u with ustackEnd := u.ustackEnd + ustackSize }
    let stack := (ucells U).next u U.freeUserStack
    shrinkLoop U (U.ustackBeg / ustackSize + 1) u stack ((ucells U).next u stack)
  else listAddsort (ucells U) (U.ustackBeg / ustackSize + 1) cmpAddr u U.freeUserStack end_

/-- The `errno` codes of `sbrk`: `SUCCESS` and `ENOMEM`. -/
inductive SbrkErrno where
  | success | enomem
  deriving DecidableEq

/-- `sbrk`, with the line size and `__usermem.uheap_beg`: the code left in `errno`, and
the address, `2 ^ 32 - 1` for the `-1` of a failure.  The increment is divided as an
unsigned number, and no field of `__usermem` changes. -/
def sbrk (cacheLineSize uheapBeg : Nat) (u : Umem) (increment : BitVec 32) : SbrkErrno × Nat :=
  let a := (u.uheapEnd + 4 * (increment.toNat / 4)) % 2 ^ 32
  let a := floor a cacheLineSize
  if a < uheapBeg ∨ u.ustackEnd < a then (.enomem, 2 ^ 32 - 1) else (.success, a)

end

/-! ## The stacks tile the region -/

/-- What holds also while the region shrinks.  `live` are the lowest addresses of
the stacks in use. -/
structure UstackCore (U : UserLayout) (u : Umem) (live : Nat → Prop) (free : List Nat) :
    Prop where
  rep : Rep (ucells U) u U.freeUserStack free
  lo_le : U.userLo ≤ u.uheapEnd
  heap_le : u.uheapEnd ≤ u.ustackEnd
  end_le : u.ustackEnd ≤ U.ustackBeg
  end_dvd : ustackSize ∣ U.ustackBeg - u.ustackEnd
  tile : ∀ e, U.OnGrid e ∧ u.ustackEnd ≤ e ↔ e ∈ free ∨ live e
  apart : ∀ e ∈ free, ¬ live e
  sorted : free.Pairwise (· < ·)
  magic : ∀ e, live e → u.mem.readWord e = magicStack ∧
    u.mem.readWord (e + (ustackSize - 4)) = magicStack

/-- The invariant: moreover the lowest stack is not a free one. -/
structure UstackInv (U : UserLayout) (u : Umem) (live : Nat → Prop) (free : List Nat) :
    Prop extends UstackCore U u live free where
  lowest : u.ustackEnd ∉ free

section
variable {U : UserLayout} {u u' : Umem} {live live' : Nat → Prop} {free : List Nat} {e : Nat}

theorem cmpAddr_neg_iff {a b : Nat} (ha : U.OnGrid a) (hb : U.OnGrid b) :
    cmpAddr a b < 0 ↔ a < b := by
  have hr := U.region_lt
  have hbeg := U.beg_lt
  obtain ⟨halo, hahi, i, hi⟩ := ha
  obtain ⟨hblo, hbhi, j, hj⟩ := hb
  simp only [ustackSize] at *
  have hdiff : (BitVec.ofNat 32 a - BitVec.ofNat 32 b).toInt = (a : Int) - b := by
    rw [BitVec.toInt_eq_toNat_bmod, BitVec.toNat_sub, BitVec.toNat_ofNat, BitVec.toNat_ofNat,
      Nat.mod_eq_of_lt (show a < 2 ^ 32 by omega), Nat.mod_eq_of_lt (show b < 2 ^ 32 by omega)]
    simp only [Int.bmod]
    omega
  rw [cmpAddr, hdiff]
  omega

theorem UstackCore.length_lt (h : UstackCore U u live free) :
    free.length < U.ustackBeg / ustackSize + 1 := by
  have hsub : free ⊆ (List.range (U.ustackBeg / ustackSize)).map
      fun i => U.ustackBeg - (i + 1) * ustackSize := by
    intro e he
    obtain ⟨⟨hlo, hhi, i, hi⟩, -⟩ := (h.tile e).mpr (.inl he)
    have hpos : i ≠ 0 := by
      rintro rfl
      omega
    refine List.mem_map.mpr ⟨i - 1, List.mem_range.mpr ?_, ?_⟩
    · simp only [ustackSize] at *
      omega
    · simp only [ustackSize] at *
      omega
  have hle := (List.subperm_of_subset h.rep.nodup hsub).length_le
  rw [List.length_map, List.length_range] at hle
  omega

/-- Stacks in use are outside the cells of the list. -/
theorem UstackCore.cell_apart (h : UstackCore U u live free) {c : Nat}
    (hc : c ∈ U.freeUserStack :: free) (he : live e) :
    c + 8 ≤ e ∨ e + ustackSize ≤ c := by
  obtain ⟨hgrid, -⟩ := (h.tile e).mpr (.inr he)
  have hroom := hgrid.room
  have hlo := hgrid.1
  have hroot := U.root_outside
  rcases List.mem_cons.mp hc with rfl | hc
  · omega
  · obtain ⟨hgrid', -⟩ := (h.tile c).mpr (.inl hc)
    have hne : c ≠ e := by
      rintro rfl
      exact h.apart c hc he
    have hap := hgrid'.apart hgrid hne
    simp only [ustackSize] at *
    omega

theorem uoutside_word {a c : Nat} (h : a + 4 ≤ c ∨ c + 8 ≤ a) :
    Outside (ucells U) (fun u => u.mem.readWord a) c where
  setNext _ _ := Mem.readWord_writeWord_of_disjoint (by omega)
  setPrev _ _ := Mem.readWord_writeWord_of_disjoint (by omega)

/-- A change of the list keeps the marks of the stacks in use. -/
theorem UstackCore.magic_touches (live' : Nat → Prop) (h : UstackCore U u live free) {X : List Nat}
    (ht : Touches (ucells U) X u u') (hX : ∀ c ∈ X, c ∈ U.freeUserStack :: free ∨ c = e)
    (hgrid : U.OnGrid e) (hlive' : ∀ d, live' d → live d ∧ d ≠ e) :
    ∀ d, live' d → u'.mem.readWord d = magicStack ∧
      u'.mem.readWord (d + (ustackSize - 4)) = magicStack := by
  intro d hd
  obtain ⟨hd', hne⟩ := hlive' d hd
  obtain ⟨hm1, hm2⟩ := h.magic d hd'
  have hfar : ∀ c ∈ X, c + 8 ≤ d ∨ d + ustackSize ≤ c := by
    intro c hc
    rcases hX c hc with hc | rfl
    · exact h.cell_apart hc hd'
    · have hap := hgrid.apart ((h.tile d).mpr (.inr hd')).1 (Ne.symm hne)
      simp only [ustackSize] at *
      omega
  constructor
  · rw [← hm1]
    refine ht _ (fun u => u.mem.readWord d) fun c hc => uoutside_word ?_
    have := hfar c hc
    simp only [ustackSize] at *
    omega
  · rw [← hm2]
    refine ht _ (fun u => u.mem.readWord (d + (ustackSize - 4))) fun c hc => uoutside_word ?_
    have := hfar c hc
    simp only [ustackSize] at *
    omega

theorem uend_touches {X : List Nat} (ht : Touches (ucells U) X u u') :
    u'.ustackEnd = u.ustackEnd ∧ u'.uheapEnd = u.uheapEnd :=
  ⟨ht _ Umem.ustackEnd fun _ _ => ⟨fun _ _ => rfl, fun _ _ => rfl⟩,
    ht _ Umem.uheapEnd fun _ _ => ⟨fun _ _ => rfl, fun _ _ => rfl⟩⟩

/-! ### `malloc_ustack` -/

/-- The words of a stack are outside another one and outside the cells. -/
theorem markStack_word {a : Nat}
    (ha : a + 4 ≤ e ∨ e + ustackSize ≤ a) :
    (markStack u (e + ustackSize - 4) e).mem.readWord a = u.mem.readWord a := by
  simp only [markStack, ustackSize] at *
  rw [Mem.readWord_writeWord_of_disjoint (by omega), Mem.readWord_writeWord_of_disjoint (by omega)]

theorem markStack_magic (u : Umem) (e : Nat) :
    (markStack u (e + ustackSize - 4) e).mem.readWord e = magicStack ∧
    (markStack u (e + ustackSize - 4) e).mem.readWord (e + (ustackSize - 4)) = magicStack := by
  constructor
  · simp only [markStack, ustackSize]
    rw [Mem.readWord_writeWord_of_disjoint (by omega), Mem.readWord_writeWord]
  · have hadd : e + (ustackSize - 4) = e + ustackSize - 4 := by
      simp only [ustackSize]
      omega
    simp only [markStack]
    rw [hadd, Mem.readWord_writeWord]

/-- The new stack is marked: it joins the stacks in use. -/
theorem UstackCore.mark (he : U.OnGrid e) (hdead : ¬ live e) (hnew : e ∉ free)
    (hrep : Rep (ucells U) u U.freeUserStack free) (hlo : U.userLo ≤ u.uheapEnd)
    (hheap : u.uheapEnd ≤ u.ustackEnd) (hend : u.ustackEnd ≤ U.ustackBeg)
    (hdvd : ustackSize ∣ U.ustackBeg - u.ustackEnd)
    (htile : ∀ d, U.OnGrid d ∧ u.ustackEnd ≤ d ↔ d ∈ free ∨ d = e ∨ live d)
    (hapart : ∀ d ∈ free, ¬ live d) (hsorted : free.Pairwise (· < ·))
    (hmagic : ∀ d, live d → u.mem.readWord d = magicStack ∧
      u.mem.readWord (d + (ustackSize - 4)) = magicStack) :
    UstackCore U (markStack u (e + ustackSize - 4) e) (fun d => d = e ∨ live d) free := by
  refine ⟨?_, hlo, hheap, hend, hdvd, htile, ?_, hsorted, ?_⟩
  · refine hrep.other fun c hc => ?_
    -- a cell is the root or another place
    have hfar : c + 8 ≤ e ∨ e + ustackSize ≤ c := by
      rcases List.mem_cons.mp hc with rfl | hc
      · have hroot := U.root_outside
        have hroom := he.room
        have hlow := he.1
        omega
      · obtain ⟨hgrid, -⟩ := (htile c).mpr (.inl hc)
        have hap := hgrid.apart he (fun heq => hnew (heq ▸ hc))
        simp only [ustackSize] at *
        omega
    have hnext : (ucells U).next (markStack u (e + ustackSize - 4) e) c = (ucells U).next u c :=
      congrArg BitVec.toNat (markStack_word (by omega))
    have hprev : (ucells U).prev (markStack u (e + ustackSize - 4) e) c = (ucells U).prev u c :=
      congrArg BitVec.toNat (markStack_word (by omega))
    rw [hnext, hprev]
  · rintro d hd (rfl | hlive)
    · exact hnew hd
    · exact hapart d hd hlive
  · rintro d hd
    by_cases hde : d = e
    · subst hde
      exact markStack_magic u d
    · have hlive := hd.resolve_left hde
      have hap := ((htile d).mpr (.inr hd)).1.apart he hde
      have hword : ∀ a, d ≤ a → a + 4 ≤ d + ustackSize →
          (markStack u (e + ustackSize - 4) e).mem.readWord a = u.mem.readWord a := by
        intro a hlo' hhi'
        exact markStack_word (by simp only [ustackSize] at *; omega)
      rw [hword d (Nat.le_refl _) (by simp only [ustackSize]; omega),
        hword _ (by omega) (by simp only [ustackSize]; omega)]
      exact hmagic d hlive

/-- At the start there is no stack. -/
theorem ustackInv_init (hlo : U.userLo ≤ u.uheapEnd) (hheap : u.uheapEnd ≤ u.ustackEnd)
    (hend : u.ustackEnd = U.ustackBeg) : UstackInv U (kmemuserInit U u) (fun _ => False) [] := by
  have hroot : (ucells U).IsCell U.freeUserStack := .inl rfl
  have htouch : Touches (ucells U) [U.freeUserStack] u (kmemuserInit U u) := init_touches
  obtain ⟨hend', hheap'⟩ := uend_touches htouch
  have hbeg : (kmemuserInit U u).ustackEnd = U.ustackBeg := hend'.trans hend
  refine ⟨⟨rep_init hroot, ?_, ?_, Nat.le_of_eq hbeg, ?_, ?_, by simp, by simp, by simp⟩, by simp⟩
  · rw [hheap']
    exact hlo
  · rw [hheap', hend']
    exact hheap
  · rw [hbeg, Nat.sub_self]
    exact Nat.dvd_zero _
  · intro e
    rw [hbeg]
    simp only [List.not_mem_nil, or_self, iff_false, not_and, Nat.not_le]
    exact fun hgrid => hgrid.2.1

/-- Without a free stack the region grows, where the heap leaves room. -/
theorem mallocUstack_nil (h : Rep (ucells U) u U.freeUserStack []) :
    mallocUstack U u = if u.ustackEnd - ustackSize < u.uheapEnd then none
      else some (u.ustackEnd - 4, markStack { u with ustackEnd := u.ustackEnd - ustackSize }
        (u.ustackEnd - 4) (u.ustackEnd - ustackSize)) := by
  simp only [mallocUstack, h.getlast_nil]
  split
  · rfl
  · rfl

/-- The highest free stack leaves the list. -/
theorem mallocUstack_concat {x : Nat} (h : Rep (ucells U) u U.freeUserStack (free ++ [x])) :
    mallocUstack U u = some (x + ustackSize - 4,
      markStack (listUnlink (ucells U) u x) (x + ustackSize - 4) x) := by
  simp only [mallocUstack, h.getlast_concat, Option.map_some]

/-- `malloc_ustack` gives a stack that is not in use. -/
theorem UstackInv.malloc_spec {top : Nat} (h : UstackInv U u live free)
    (hm : mallocUstack U u = some (top, u')) :
    ∃ e free', top = e + (ustackSize - 4) ∧ ¬ live e ∧
      UstackInv U u' (fun d => d = e ∨ live d) free' := by
  rcases List.eq_nil_or_concat free with rfl | ⟨rest, x, rfl⟩
  · -- no free stack: the region grows
    rw [mallocUstack_nil h.rep] at hm
    split at hm
    · exact absurd hm (by simp)
    · rename_i hroom
      obtain ⟨rfl, rfl⟩ := Prod.mk.inj (Option.some.inj hm)
      have hlo := h.lo_le
      have hlow := U.lo_pos
      have hend := h.end_le
      obtain ⟨i, hi⟩ := h.end_dvd
      have hsub : u.ustackEnd - ustackSize + ustackSize = u.ustackEnd := by
        have := h.heap_le
        omega
      have hgrid : U.OnGrid (u.ustackEnd - ustackSize) := by
        refine ⟨by omega, ?_, i + 1, ?_⟩
        · simp only [ustackSize] at *
          omega
        · simp only [ustackSize] at *
          omega
      have hdead : ¬ live (u.ustackEnd - ustackSize) := by
        intro hlive
        have := ((h.tile _).mpr (.inr hlive)).2
        simp only [ustackSize] at *
        omega
      refine ⟨u.ustackEnd - ustackSize, [], ?_, hdead, ?_, by simp⟩
      · simp only [ustackSize] at *
        omega
      · have hmark := UstackCore.mark (u := { u with ustackEnd := u.ustackEnd - ustackSize })
          hgrid hdead (by simp) (h.rep.other fun _ _ => rfl) h.lo_le (Nat.not_lt.mp hroom)
          (by simp only [ustackSize] at *; omega) (by simpa using hgrid.2.2) ?_ (by simp)
          (by simp) h.magic
        · rwa [hsub] at hmark
        · intro d
          have htile := h.tile d
          constructor
          · rintro ⟨hd, hle⟩
            refine .inr ?_
            by_cases hde : d = u.ustackEnd - ustackSize
            · exact .inl hde
            · have hap := hd.apart hgrid hde
              refine .inr ((htile.mp ⟨hd, ?_⟩).resolve_left (by simp))
              simp only [ustackSize] at *
              omega
          · rintro (hd | hd | hd)
            · exact absurd hd (by simp)
            · rw [hd]
              exact ⟨hgrid, Nat.le_refl _⟩
            · obtain ⟨h1, h2⟩ := htile.mpr (.inr hd)
              exact ⟨h1, by simp only [ustackSize] at *; omega⟩
  · -- the highest free stack
    rw [List.concat_eq_append] at h
    rw [mallocUstack_concat h.rep] at hm
    obtain ⟨rfl, rfl⟩ := Prod.mk.inj (Option.some.inj hm)
    have hmem : x ∈ rest ++ [x] := by simp
    obtain ⟨hgrid, hge⟩ := (h.tile x).mpr (.inl hmem)
    have hdead := h.apart x hmem
    have htouch := h.rep.unlink_touches
    obtain ⟨hend', hheap'⟩ := uend_touches htouch
    have hnd := (List.nodup_append.mp h.rep.nodup).2.2
    have hnew : x ∉ rest := fun hx => hnd x hx x (by simp) rfl
    refine ⟨x, rest, ?_, hdead, ?_, ?_⟩
    · simp only [ustackSize]
      omega
    · refine UstackCore.mark hgrid hdead hnew (by simpa using h.rep.unlink)
        (hheap' ▸ h.lo_le) (by rw [hend', hheap']; exact h.heap_le) (hend' ▸ h.end_le)
        (hend' ▸ h.end_dvd) ?_ (fun d hd => h.apart d (by simp [hd]))
        (List.pairwise_append.mp h.sorted).1 ?_
      · intro d
        rw [hend', h.tile d]
        simp only [List.mem_append, List.mem_singleton]
        tauto
      · refine h.toUstackCore.magic_touches _ htouch (e := x) ?_ hgrid ?_
        · intro c hc
          refine .inl ?_
          simp only [List.append_nil, List.mem_cons, List.mem_append] at hc ⊢
          tauto
        · intro d hd
          refine ⟨hd, ?_⟩
          rintro rfl
          exact hdead hd
    · rw [show (markStack (listUnlink (ucells U) u x) (x + ustackSize - 4) x).ustackEnd
          = (listUnlink (ucells U) u x).ustackEnd from rfl, hend']
      exact fun hx => h.lowest (by simp [hx])

/-! ### `free_ustack` -/

/-- The loop takes out the free stacks at the end of the region. -/
theorem shrinkLoop_spec : ∀ (free : List Nat) (fuel : Nat) (u : Umem), free.length < fuel →
    UstackCore U u live free →
    ∃ u' free', shrinkLoop U fuel u ((free ++ [U.freeUserStack]).head (by simp))
        ((ucells U).next u ((free ++ [U.freeUserStack]).head (by simp))) = some u' ∧
      UstackInv U u' live free' := by
  intro free
  induction free with
  | nil =>
    intro fuel u hfuel h
    obtain ⟨n, rfl⟩ : ∃ n, fuel = n + 1 := ⟨fuel - 1, by simp at hfuel; omega⟩
    exact ⟨u, [], by simp [shrinkLoop], h, by simp⟩
  | cons x rest ih =>
    intro fuel u hfuel h
    obtain ⟨n, rfl⟩ : ∃ n, fuel = n + 1 := ⟨fuel - 1, by simp at hfuel; omega⟩
    have hxr : x ≠ U.freeUserStack := by
      rintro rfl
      exact h.rep.not_mem (by simp)
    obtain ⟨hgrid, hge⟩ := (h.tile x).mpr (.inl (by simp))
    by_cases hx : x = u.ustackEnd
    · -- the first free stack is the lowest one
      have hrep : Rep (ucells U) u U.freeUserStack ([] ++ x :: rest) := h.rep
      have htouch := hrep.unlink_touches
      obtain ⟨hend', hheap'⟩ := uend_touches htouch
      have hxrest : x ∉ rest := (List.nodup_cons.mp h.rep.nodup).1
      have hroom := hgrid.room
      obtain ⟨u₁, hu₁⟩ : ∃ u₁, u₁ = { listUnlink (ucells U) u x with
        ustackEnd := x + ustackSize } := ⟨_, rfl⟩
      have hcore : UstackCore U u₁ live rest := by
        rw [hu₁]
        refine ⟨hrep.unlink.other fun _ _ => rfl, hheap' ▸ h.lo_le, ?_, hroom, ?_, ?_, ?_, ?_, ?_⟩
        · have := h.heap_le
          simp only [hheap']
          omega
        · obtain ⟨i, hi⟩ := hgrid.2.2
          exact ⟨i - 1, by simp only [ustackSize] at *; omega⟩
        · intro d
          have htile := h.tile d
          rw [List.mem_cons] at htile
          constructor
          · rintro ⟨hd, hle⟩
            simp only [ustackSize] at hle
            rcases htile.mp ⟨hd, by omega⟩ with (hdx | hd') | hd'
            · omega
            · exact .inl hd'
            · exact .inr hd'
          · intro hd
            obtain ⟨hd', hle⟩ := htile.mpr (hd.imp .inr id)
            have hne : d ≠ x := by
              rintro rfl
              rcases hd with hd | hd
              · exact hxrest hd
              · exact h.apart d (by simp) hd
            have hap := hd'.apart hgrid hne
            refine ⟨hd', ?_⟩
            simp only [ustackSize] at *
            omega
        · exact fun d hd => h.apart d (by simp [hd])
        · exact (List.pairwise_cons.mp h.sorted).2
        · have hmagic := h.magic_touches live htouch (e := x) ?_ hgrid ?_
          · exact hmagic
          · intro c hc
            refine .inl ?_
            simp only [List.nil_append, List.mem_cons] at hc ⊢
            tauto
          · intro d hd
            refine ⟨hd, ?_⟩
            rintro rfl
            exact h.apart d (by simp) hd
      obtain ⟨u', free', hloop, hinv⟩ := ih n u₁ (by simp at hfuel; omega) hcore
      refine ⟨u', free', ?_, hinv⟩
      have hnext : (ucells U).next u x = (rest ++ [U.freeUserStack]).head (by simp) :=
        hrep.ring.next_mem
      simp only [List.cons_append, List.head_cons]
      rw [shrinkLoop, if_neg hxr, if_neg (not_not.mpr hx), h.rep.getfirst_cons]
      simp only [Option.getD_some, ← hu₁, hnext]
      exact hloop
    · refine ⟨u, x :: rest, ?_, h, ?_⟩
      · simp only [List.cons_append, List.head_cons, shrinkLoop, hxr, if_false, ne_eq, hx,
          not_false_eq_true, if_true]
      · intro hmem
        rcases List.mem_cons.mp hmem with he | he
        · exact hx he.symm
        · have hlt := (List.pairwise_cons.mp h.sorted).1 _ he
          omega

/-- `free_ustack` of a stack in use succeeds. -/
theorem UstackInv.free_spec (h : UstackInv U u live free) (hlive : live e) :
    ∃ u' free', freeUstack U (e + (ustackSize - 4)) u = some u' ∧
      UstackInv U u' (fun d => live d ∧ d ≠ e) free' := by
  obtain ⟨hgrid, hge⟩ := (h.tile e).mpr (.inr hlive)
  obtain ⟨hm1, hm2⟩ := h.magic e hlive
  have hnew : e ∉ free := fun he => h.apart e he hlive
  have haddr : 4 + (e + (ustackSize - 4)) - ustackSize = e := by
    simp only [ustackSize]
    omega
  simp only [freeUstack, haddr, hm1, hm2, ne_eq, not_true_eq_false, if_false]
  clear haddr
  by_cases hend : e = u.ustackEnd
  · -- the lowest stack: the region shrinks
    have hroom := hgrid.room
    have hcore : UstackCore U { u with ustackEnd := u.ustackEnd + ustackSize }
        (fun d => live d ∧ d ≠ e) free := by
      refine ⟨h.rep.other fun _ _ => rfl, h.lo_le, ?_, hend ▸ hroom, ?_, ?_, ?_, h.sorted,
        fun d hd => h.magic d hd.1⟩
      · have := h.heap_le
        simp only
        omega
      · obtain ⟨i, hi⟩ := h.end_dvd
        exact ⟨i - 1, by simp only [ustackSize] at *; omega⟩
      · intro d
        have htile := h.tile d
        constructor
        · rintro ⟨hd, hle⟩
          simp only [ustackSize] at hle
          rcases htile.mp ⟨hd, by omega⟩ with hd' | hd'
          · exact .inl hd'
          · exact .inr ⟨hd', by omega⟩
        · intro hd
          have hne : d ≠ e := by
            rintro rfl
            rcases hd with hd | hd
            · exact hnew hd
            · exact hd.2 rfl
          obtain ⟨hd', hle⟩ := htile.mpr (hd.imp id And.left)
          have hap := hd'.apart hgrid hne
          refine ⟨hd', ?_⟩
          simp only [ustackSize] at *
          omega
      · exact fun d hd hl => h.apart d hd hl.1
    have hspec := shrinkLoop_spec free _ _ hcore.length_lt hcore
    rw [if_pos hend]
    rw [← hcore.rep.ring.next_root] at hspec
    exact hspec
  · rw [if_neg hend]
    have hnotroot : e ∉ U.freeUserStack :: free := by
      rw [List.mem_cons, not_or]
      refine ⟨?_, hnew⟩
      rintro rfl
      have hroot := U.root_outside
      have hroom := hgrid.room
      have hlo := hgrid.1
      simp only [ustackSize] at hroom
      omega
    obtain ⟨ys, zs, u', rfl, hys, hzs, hadd, hrep, htouch⟩ :=
      h.rep.addsort cmpAddr (.inr hgrid) hnotroot h.length_lt
    obtain ⟨hend', hheap'⟩ := uend_touches htouch
    have hmem : ∀ d, d ∈ ys ++ e :: zs ↔ d = e ∨ d ∈ ys ++ zs := by
      intro d
      simp only [List.mem_append, List.mem_cons]
      tauto
    refine ⟨u', ys ++ e :: zs, hadd, ⟨hrep, hheap' ▸ h.lo_le, ?_, hend' ▸ h.end_le,
      hend' ▸ h.end_dvd, ?_, ?_, ?_, ?_⟩, ?_⟩
    · rw [hend', hheap']
      exact h.heap_le
    · intro d
      rw [hend', h.tile d, hmem d]
      constructor
      · rintro (hd | hd)
        · exact .inl (.inr hd)
        · by_cases hde : d = e
          · exact .inl (.inl hde)
          · exact .inr ⟨hd, hde⟩
      · rintro ((rfl | hd) | hd)
        · exact .inr hlive
        · exact .inl hd
        · exact .inr hd.1
    · intro d hd hl
      rcases (hmem d).mp hd with rfl | hd
      · exact hl.2 rfl
      · exact h.apart d hd hl.1
    · -- the new stack is placed between the lower and the higher ones
      have hgridOf : ∀ d ∈ ys ++ zs, U.OnGrid d := fun d hd => ((h.tile d).mpr (.inl hd)).1
      have hsorted := List.pairwise_append.mp h.sorted
      have hlow : ∀ y ∈ ys, y < e := fun y hy =>
        (cmpAddr_neg_iff (hgridOf y (by simp [hy])) hgrid).mp (hys y hy)
      have hhigh : ∀ z ∈ zs, e < z := by
        cases zs with
        | nil => simp
        | cons z zs =>
          have hz : e < z := by
            have hnonneg := hzs z (by simp)
            have hle : ¬ z < e := by
              rw [← cmpAddr_neg_iff (hgridOf z (by simp)) hgrid]
              omega
            have hne : z ≠ e := by
              rintro rfl
              exact hnew (by simp)
            omega
          intro w hw
          rcases List.mem_cons.mp hw with rfl | hw
          · exact hz
          · exact hz.trans ((List.pairwise_cons.mp hsorted.2.1).1 w hw)
      refine List.pairwise_append.mpr ⟨hsorted.1, List.pairwise_cons.mpr ⟨hhigh, hsorted.2.1⟩, ?_⟩
      intro y hy z hz
      rcases List.mem_cons.mp hz with rfl | hz
      · exact hlow y hy
      · exact hsorted.2.2 y hy z hz
    · refine h.toUstackCore.magic_touches _ htouch ?_ hgrid fun d hd => hd
      intro c hc
      rcases List.mem_cons.mp hc with rfl | hc
      · exact .inr rfl
      · exact .inl hc
    · rw [hend', hmem]
      rintro (he | he)
      · exact hend he.symm
      · exact h.lowest he

end

end Ko6.Kernel
