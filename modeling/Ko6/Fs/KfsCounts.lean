import Ko6.Fs.KfsNames

set_option autoImplicit false

/-!
# Fs: the link counts of KFS

`kfs_openat` gives a new inode the count 1, and `kfs_link` adds one.  `kfs_unlink` tests the
count before it takes one off, so that the inode of a name that was the only one keeps its
bit.  `kfs_link` frees the inode that the second name had, whatever its count is, and the
count has two bits.  `countRun_exact` is about the runs that keep away from this: each
`kfs_unlink` leaves another name, and each `kfs_link` is for a name that is the only one of
its inode, to a file with at most two names.
-/

namespace Ko6.Fs

open Ko6.Lib Ko6.Common

/-! ## Counts -/

/-- The inode is in use. -/
def InodeUsed (s : Kfs) (i : Nat) : Prop := i < kfsMaxInode ∧ s.inodeMap.bmp.isSet i = true

/-- The dentries in use that refer to the inode. -/
def namesOf (s : Kfs) (i : Nat) : Finset Nat :=
  (Finset.range kfsMaxDentry).filter fun d =>
    s.dentryMap.bmp.isSet d = true ∧ (s.dentry d).inode = i

/-- The count of a file is the number of its names, and the inodes in use are those that have
a name. -/
structure CountsExact (s : Kfs) : Prop where
  count : ∀ i, InodeUsed s i → (s.inode i).type = .file → (s.inode i).count.toNat = (namesOf s i).card
  used : ∀ i, InodeUsed s i ↔ (namesOf s i).Nonempty

/-! ## Runs -/

/-- A dentry and an inode are free whenever `kfs_open` makes a name. -/
def Available : Nat → CStr → Nat → Kfs → Prop
  | 0, _, _, _ => True
  | fuel + 1, next, dentry, s =>
    match kfsGetname next with
    | none => True
    | some (name, next) =>
      (kfsFind s dentry name = some none → Room s) ∧
        ∀ r, kfsOpenat s dentry name = some r → Available fuel next r.1 r.2

def OpenAvailable (s : Kfs) (path : CStr) : Prop :=
  ∀ name next, kfsGetname path = some (name, next) → Available (strlen next) next 0 s

/-- Dentries and inodes are available.  With the paths opened, `kfs_link` is from a file of at
most two names to the only name of another inode, and `kfs_unlink` for one of several names. -/
def CountStepOk (s : Kfs) : KfsOp → Prop
  | .open_ path => OpenAvailable s path
  | .link src dst =>
    OpenAvailable s src ∧ ∀ a s₁, kfsOpen s src = some (some a, s₁) →
      OpenAvailable s₁ dst ∧ ∀ b s₂, kfsOpen s₁ dst = some (some b, s₂) →
        a ≠ b ∧ (s₂.dentry a).inode ≠ 0 ∧ (s₂.dentry b).inode ≠ 0 ∧
          (namesOf s₂ (s₂.dentry a).inode).card ≤ 2 ∧ (namesOf s₂ (s₂.dentry b).inode).card = 1
  | .unlink path =>
    OpenAvailable s path ∧ ∀ d s₁, kfsOpen s path = some (some d, s₁) →
      (s₁.dentry d).inode ≠ 0 ∧ 2 ≤ (namesOf s₁ (s₁.dentry d).inode).card
  | _ => False

/-- The tables after a run of such calls. -/
inductive CountRun : Kfs → Prop where
  | start : CountRun kfsStart
  | call {s s' : Kfs} {c : KfsOp} : CountRun s → CountStepOk s c → kfsOp s c = some s' → CountRun s'

/-! ## Links -/

/-- The two links of a dentry. -/
def linkOf (s : Kfs) (b : Bool) (x : Nat) : Nat :=
  if b then (s.dentry x).leaf else (s.dentry x).next

/-- The links are from dentries in use to dentries in use, with one link to each and no way
round; `rank` falls along them. -/
structure Linked (s : Kfs) : Prop where
  used : ∀ b x, linkOf s b x ≠ 0 → Allocated s x ∧ Allocated s (linkOf s b x)
  once : ∀ b b' x x', linkOf s b x = linkOf s b' x' → linkOf s b x ≠ 0 → b = b' ∧ x = x'
  ranked : ∃ rank : Nat → Nat, ∀ b x, linkOf s b x ≠ 0 → rank (linkOf s b x) < rank x
  top : (s.dentry 0).next = 0

/-- What the calls keep. -/
structure CountInv (s : Kfs) : Prop extends Linked s where
  lowDentry : Low s.dentryMap kfsMaxDentry
  lowInode : Low s.inodeMap kfsMaxInode
  topUsed : Allocated s 0
  topInode : (s.dentry 0).inode = 0
  topDir : (s.inode 0).type = .dir
  named : ∀ i, InodeUsed s i ↔ (namesOf s i).Nonempty
  count : ∀ i, i ≠ 0 → InodeUsed s i → (s.inode i).count.toNat = (namesOf s i).card

section
variable {s s' : Kfs} {d x i new root : Nat} {name next path : CStr} {b : Bool}

theorem mem_namesOf : d ∈ namesOf s i ↔ Allocated s d ∧ (s.dentry d).inode = i := by
  unfold namesOf Allocated
  rw [Finset.mem_filter, Finset.mem_range, and_assoc]

theorem CountInv.exact (h : CountInv s) : CountsExact s where
  count := fun i hi hfile => by
    refine h.count i ?_ hi
    rintro rfl
    rw [h.topDir] at hfile
    exact absurd hfile (by decide)
  used := h.named

/-- A link of a new leaf, of its directory, or of another dentry. -/
structure Made (s : Kfs) (root new i : Nat) (s' : Kfs) : Prop where
  new_lt : new < kfsMaxDentry
  new_free : s.dentryMap.bmp.isSet new = false
  i_lt : i < kfsMaxInode
  i_free : s.inodeMap.bmp.isSet i = false
  lowDentry : Low s'.dentryMap kfsMaxDentry
  lowInode : Low s'.inodeMap kfsMaxInode
  dentrySet : ∀ k, s'.dentryMap.bmp.isSet k = (decide (k = new) || s.dentryMap.bmp.isSet k)
  inodeSet : ∀ k, s'.inodeMap.bmp.isSet k = (decide (k = i) || s.inodeMap.bmp.isSet k)
  atLeaf : ∀ x, (s'.dentry x).leaf = if x = new then 0 else if x = root then new else (s.dentry x).leaf
  atNext : ∀ x, (s'.dentry x).next = if x = new then (s.dentry root).leaf else (s.dentry x).next
  atInode : ∀ x, (s'.dentry x).inode = if x = new then i else (s.dentry x).inode
  inodeNew : (s'.inode i).count = 1
  inodeOther : ∀ j, j ≠ i → s'.inode j = s.inode j

/-- `kfs_strcpy` into a name changes no other field, but for the root behind a name that is
too long. -/
theorem kfsStrcpyName_field {β : Type} (field : KfsDentry → β)
    (hname : ∀ e v, field { e with name := v } = field e)
    (hroot : ∀ e v, field { e with root := v } = field e) (s : Kfs) (dentry : Nat) (src : CStr)
    (x : Nat) : field ((kfsStrcpyName s dentry src).dentry x) = field (s.dentry x) := by
  rw [kfsStrcpyName]
  split
  · exact Kfs.setDentry_field field fun e => hname e _
  · rw [Kfs.setDentry_field field fun e => hroot e 0]
    exact Kfs.setDentry_field field fun e => hname e _

theorem kfsStrcpyName_tables (s : Kfs) (dentry : Nat) (src : CStr) :
    (kfsStrcpyName s dentry src).dentryMap = s.dentryMap ∧
      (kfsStrcpyName s dentry src).inodeMap = s.inodeMap ∧
      (kfsStrcpyName s dentry src).inode = s.inode := by
  rw [kfsStrcpyName]
  split <;> exact ⟨rfl, rfl, rfl⟩

/-- `kfs_openat` of a new name of any length, when there is room. -/
theorem kfsCreate_made (hd : Low s.dentryMap kfsMaxDentry) (hi : Low s.inodeMap kfsMaxInode)
    (hroot : Allocated s root) (hd0 : s.dentryMap.bmp.isSet 0 = true)
    (hi0 : s.inodeMap.bmp.isSet 0 = true) (hroom : Room s) (name : CStr) :
    ∃ new i s', kfsCreate s root name = (new, s') ∧ Made s root new i s' := by
  obtain ⟨new, hnew, hfree, halloc, hlow⟩ := hd.alloc hroom.1
  have hne0 : new ≠ 0 := by
    rintro rfl
    rw [hd0] at hfree
    exact absurd hfree (by decide)
  have hne : root ≠ new := by
    rintro rfl
    rw [hroot.2] at hfree
    exact absurd hfree (by decide)
  let s₁ := kfsStrcpyName { s with dentryMap := ⟨s.dentryMap.bmp.set new, new⟩ } new name
  have hfields : ∀ x, (s₁.dentry x).leaf = (s.dentry x).leaf ∧
      (s₁.dentry x).next = (s.dentry x).next ∧ (s₁.dentry x).inode = (s.dentry x).inode :=
    fun x => ⟨kfsStrcpyName_field KfsDentry.leaf (fun _ _ => rfl) (fun _ _ => rfl) _ new name x,
      kfsStrcpyName_field KfsDentry.next (fun _ _ => rfl) (fun _ _ => rfl) _ new name x,
      kfsStrcpyName_field KfsDentry.inode (fun _ _ => rfl) (fun _ _ => rfl) _ new name x⟩
  obtain ⟨hmap₁, himap₁, hino₁⟩ : s₁.dentryMap = ⟨s.dentryMap.bmp.set new, new⟩ ∧
      s₁.inodeMap = s.inodeMap ∧ s₁.inode = s.inode := kfsStrcpyName_tables _ new name
  have hdentry : kfsAllocDentry s name = (new, s₁) := by
    rw [kfsAllocDentry, halloc]
    exact if_neg hne0
  obtain ⟨i, s₂, halloc₂, hi', hiFree, hlowI, hsetI, hcount, hinoOther, hmap₂, hden₂⟩ :=
    kfsAllocInode_spec (s := s₁) (by rwa [himap₁]) (by rwa [himap₁])
      (by rw [himap₁]; exact hroom.2) .file
  rw [himap₁] at hiFree hsetI
  have hmaxD : kfsMaxDentry = 256 := rfl
  have hmaxI : kfsMaxInode = 256 := rfl
  have hu8n : u8 new = new := Nat.mod_eq_of_lt (by omega)
  have hu8i : u8 i = i := Nat.mod_eq_of_lt (by omega)
  let s₃ := s₂.setDentry new fun e => { e with inode := u8 i, leaf := 0, root := u8 root }
  let s₄ := s₃.setDentry new fun e => { e with next := (s₃.dentry root).leaf }
  let s' := s₄.setDentry root fun e => { e with leaf := u8 new }
  have hcreate : kfsCreate s root name = (new, s') := by
    rw [kfsCreate, hdentry]
    simp only [halloc₂]
    rfl
  have hold : ∀ x, x ≠ new → x ≠ root → s'.dentry x = s₁.dentry x := by
    intro x hx hxr
    have h₃ : s₃.dentry x = s₂.dentry x := Kfs.setDentry_dentry_ne hx
    have h₄ : s₄.dentry x = s₃.dentry x := Kfs.setDentry_dentry_ne hx
    have h₅ : s'.dentry x = s₄.dentry x := Kfs.setDentry_dentry_ne hxr
    rw [h₅, h₄, h₃, hden₂]
  have hroot₃ : s₃.dentry root = s₁.dentry root := by
    have h₃ : s₃.dentry root = s₂.dentry root := Kfs.setDentry_dentry_ne hne
    rw [h₃, hden₂]
  have hatRoot : s'.dentry root = { s₁.dentry root with leaf := new } := by
    have h₄ : s₄.dentry root = s₃.dentry root := Kfs.setDentry_dentry_ne hne
    have h₅ : s'.dentry root = { s₄.dentry root with leaf := u8 new } := Kfs.setDentry_dentry
    rw [h₅, h₄, hroot₃, hu8n]
  have hatNew : s'.dentry new = ⟨u8 root, (s₁.dentry root).leaf, 0, i, (s₂.dentry new).name⟩ := by
    have h₃ : s₃.dentry new = { s₂.dentry new with inode := u8 i, leaf := 0, root := u8 root } :=
      Kfs.setDentry_dentry
    have h₄ : s₄.dentry new = { s₃.dentry new with next := (s₃.dentry root).leaf } :=
      Kfs.setDentry_dentry
    have h₅ : s'.dentry new = s₄.dentry new := Kfs.setDentry_dentry_ne hne.symm
    rw [h₅, h₄, h₃, hroot₃, hu8i]
  have hat : ∀ x, (s'.dentry x).leaf
        = (if x = new then 0 else if x = root then new else (s.dentry x).leaf) ∧
      (s'.dentry x).next = (if x = new then (s.dentry root).leaf else (s.dentry x).next) ∧
      (s'.dentry x).inode = (if x = new then i else (s.dentry x).inode) := by
    intro x
    obtain ⟨hleaf, hnext, hinode⟩ := hfields x
    by_cases hx : x = new
    · rw [if_pos hx, if_pos hx, if_pos hx, hx, hatNew]
      exact ⟨rfl, (hfields root).1, rfl⟩
    · rw [if_neg hx, if_neg hx, if_neg hx]
      by_cases hxr : x = root
      · rw [if_pos hxr, ← hnext, ← hinode, hxr, hatRoot]
        exact ⟨rfl, rfl, rfl⟩
      · rw [if_neg hxr, hold x hx hxr]
        exact ⟨hleaf, hnext, hinode⟩
  exact ⟨new, i, s', hcreate,
    { new_lt := hnew
      new_free := hfree
      i_lt := hi'
      i_free := hiFree
      lowDentry := by
        show Low s₂.dentryMap kfsMaxDentry
        rw [hmap₂, hmap₁]
        exact hlow
      lowInode := hlowI
      dentrySet := fun k => by
        show s₂.dentryMap.bmp.isSet k = _
        rw [hmap₂, hmap₁]
        exact Bitmap.isSet_set ..
      inodeSet := hsetI
      atLeaf := fun x => (hat x).1
      atNext := fun x => (hat x).2.1
      atInode := fun x => (hat x).2.2
      inodeNew := hcount
      inodeOther := fun j hj => by
        show s₂.inode j = s.inode j
        rw [hinoOther j hj, hino₁] }⟩

namespace Made

theorem allocated_iff (h : Made s root new i s') : Allocated s' x ↔ x = new ∨ Allocated s x := by
  unfold Allocated
  rw [h.dentrySet, Bool.or_eq_true, decide_eq_true_eq]
  constructor
  · rintro ⟨hlt, rfl | hset⟩
    · exact .inl rfl
    · exact .inr ⟨hlt, hset⟩
  · rintro (rfl | ⟨hlt, hset⟩)
    · exact ⟨h.new_lt, .inl rfl⟩
    · exact ⟨hlt, .inr hset⟩

theorem ne_new (h : Made s root new i s') (hx : Allocated s x) : x ≠ new := by
  rintro rfl
  have hfree := h.new_free
  rw [hx.2] at hfree
  exact absurd hfree (by decide)

theorem used_iff (h : Made s root new i s') {j : Nat} :
    InodeUsed s' j ↔ j = i ∨ InodeUsed s j := by
  unfold InodeUsed
  rw [h.inodeSet, Bool.or_eq_true, decide_eq_true_eq]
  constructor
  · rintro ⟨hlt, rfl | hset⟩
    · exact .inl rfl
    · exact .inr ⟨hlt, hset⟩
  · rintro (rfl | ⟨hlt, hset⟩)
    · exact ⟨h.i_lt, .inl rfl⟩
    · exact ⟨hlt, .inr hset⟩

theorem ne_inode (h : Made s root new i s') {j : Nat} (hj : InodeUsed s j) : j ≠ i := by
  rintro rfl
  have hfree := h.i_free
  rw [hj.2] at hfree
  exact absurd hfree (by decide)

/-- The new inode has the new name, and the others have theirs. -/
theorem namesOf_eq (h : Made s root new i s') (hnamed : ∀ j, InodeUsed s j ↔ (namesOf s j).Nonempty)
    (j : Nat) : namesOf s' j = if j = i then {new} else namesOf s j := by
  ext d
  rw [mem_namesOf, h.allocated_iff, h.atInode]
  by_cases hd : d = new
  · rw [if_pos hd, hd]
    split
    · next hj => simp [hj]
    · next hj =>
      have hnot : new ∉ namesOf s j := fun hin => h.ne_new (mem_namesOf.mp hin).1 rfl
      exact ⟨fun hc => absurd hc.2.symm hj, fun hc => absurd hc hnot⟩
  · rw [if_neg hd, or_iff_right hd, ← mem_namesOf]
    split
    · next hj =>
      rw [Finset.mem_singleton, hj]
      refine ⟨fun hin => ?_, fun hc => absurd hc hd⟩
      exact absurd rfl (h.ne_inode ((hnamed i).mpr ⟨d, hin⟩))
    · rfl

/-- The only link to the new leaf is that of its directory, -/
theorem linkOf_new (h : Made s root new i s') (hl : Linked s) (hlink : linkOf s' b x = new)
    (hnew : new ≠ 0) : b = true ∧ x = root := by
  have hold : ∀ b x, linkOf s b x ≠ new := by
    intro b x heq
    exact h.ne_new (hl.used b x (heq ▸ hnew)).2 heq
  cases b with
  | false =>
    have hn := h.atNext x
    rw [show (s'.dentry x).next = new from hlink] at hn
    split at hn
    · exact absurd hn.symm (hold true root)
    · exact absurd hn.symm (hold false x)
  | true =>
    have hn := h.atLeaf x
    rw [show (s'.dentry x).leaf = new from hlink] at hn
    split at hn
    · exact absurd hn hnew
    · split at hn
      · next hx => exact ⟨rfl, hx⟩
      · exact absurd hn.symm (hold true x)

/-- and the others were there, that of the directory in its place. -/
theorem linkOf_old (h : Made s root new i s') (hlink : linkOf s' b x ≠ 0)
    (hnew : linkOf s' b x ≠ new) :
    b = false ∧ x = new ∧ linkOf s' b x = linkOf s true root ∨
      linkOf s' b x = linkOf s b x ∧ x ≠ new ∧ ¬ (b = true ∧ x = root) := by
  cases b with
  | false =>
    have hn : linkOf s' false x = _ := h.atNext x
    split at hn
    · next hx => exact .inl ⟨rfl, hx, hn⟩
    · next hx => exact .inr ⟨hn, hx, by simp⟩
  | true =>
    have hn : linkOf s' true x = _ := h.atLeaf x
    split at hn
    · exact absurd hn hlink
    · next hx =>
      split at hn
      · exact absurd hn hnew
      · next hxr => exact .inr ⟨hn, hx, fun hc => hxr hc.2⟩

theorem linked (h : Made s root new i s') (hl : Linked s) (hroot : Allocated s root)
    (h0 : Allocated s 0) : Linked s' where
  used := fun b x hlink => by
    have hup : ∀ y, Allocated s y → Allocated s' y := fun y hy => h.allocated_iff.mpr (.inr hy)
    by_cases hnew : linkOf s' b x = new
    · obtain ⟨-, rfl⟩ := h.linkOf_new hl hnew (hnew ▸ hlink)
      rw [hnew]
      exact ⟨hup x hroot, h.allocated_iff.mpr (.inl rfl)⟩
    · rcases h.linkOf_old hlink hnew with ⟨-, rfl, heq⟩ | ⟨heq, -, -⟩
      · rw [heq] at hlink ⊢
        exact ⟨h.allocated_iff.mpr (.inl rfl), hup _ (hl.used true root hlink).2⟩
      · rw [heq] at hlink ⊢
        obtain ⟨hx, hy⟩ := hl.used b x hlink
        exact ⟨hup x hx, hup _ hy⟩
  once := fun b b' x x' hsame hlink => by
    by_cases hnew : linkOf s' b x = new
    · obtain ⟨rfl, rfl⟩ := h.linkOf_new hl hnew (hnew ▸ hlink)
      obtain ⟨rfl, rfl⟩ := h.linkOf_new hl (hsame ▸ hnew) (hnew ▸ hlink)
      exact ⟨rfl, rfl⟩
    · have hlink' : linkOf s' b' x' ≠ 0 := hsame ▸ hlink
      have hnew' : linkOf s' b' x' ≠ new := hsame ▸ hnew
      rcases h.linkOf_old hlink hnew with ⟨rfl, rfl, heq⟩ | ⟨heq, hx, hne⟩ <;>
        rcases h.linkOf_old hlink' hnew' with ⟨rfl, rfl, heq'⟩ | ⟨heq', hx', hne'⟩
      · exact ⟨rfl, rfl⟩
      · obtain ⟨rfl, rfl⟩ := hl.once true b' root x' (by rw [← heq, hsame, heq']) (heq ▸ hlink)
        exact absurd ⟨rfl, rfl⟩ hne'
      · obtain ⟨rfl, rfl⟩ := hl.once b true x root (by rw [← heq, hsame, heq']) (heq ▸ hlink)
        exact absurd ⟨rfl, rfl⟩ hne
      · exact hl.once b b' x x' (by rw [← heq, hsame, heq']) (heq ▸ hlink)
  ranked := by
    obtain ⟨rank, hrank⟩ := hl.ranked
    -- the new leaf comes between its directory and the old leaf
    refine ⟨fun x => if x = new then 2 * rank root else 2 * rank x + 1, fun b x hlink => ?_⟩
    have hrn : root ≠ new := h.ne_new hroot
    by_cases hnew : linkOf s' b x = new
    · obtain ⟨-, rfl⟩ := h.linkOf_new hl hnew (hnew ▸ hlink)
      simp only
      rw [if_pos hnew, if_neg hrn]
      exact Nat.lt_succ_self _
    · simp only
      rw [if_neg hnew]
      rcases h.linkOf_old hlink hnew with ⟨-, rfl, heq⟩ | ⟨heq, hx, -⟩
      · rw [if_pos rfl, heq]
        have := hrank true root (heq ▸ hlink)
        omega
      · rw [if_neg hx, heq]
        have := hrank b x (heq ▸ hlink)
        omega
  top := by
    rw [h.atNext, if_neg (h.ne_new h0)]
    exact hl.top

/-- One name more, with an inode of its own. -/
theorem inv (h : Made s root new i s') (hinv : CountInv s) (hroot : Allocated s root) :
    CountInv s' where
  toLinked := h.linked hinv.toLinked hroot hinv.topUsed
  lowDentry := h.lowDentry
  lowInode := h.lowInode
  topUsed := h.allocated_iff.mpr (.inr hinv.topUsed)
  topInode := by
    rw [h.atInode, if_neg (h.ne_new hinv.topUsed)]
    exact hinv.topInode
  topDir := by
    have h0 : InodeUsed s 0 := (hinv.named 0).mpr ⟨0, mem_namesOf.mpr ⟨hinv.topUsed, hinv.topInode⟩⟩
    rw [h.inodeOther 0 (h.ne_inode h0)]
    exact hinv.topDir
  named := fun j => by
    rw [h.used_iff, h.namesOf_eq hinv.named]
    split
    · next hj => exact ⟨fun _ => Finset.singleton_nonempty new, fun _ => .inl hj⟩
    · next hj => rw [or_iff_right hj, hinv.named]
  count := fun j hj0 hj => by
    rw [h.namesOf_eq hinv.named]
    split
    · next hji =>
      rw [hji, h.inodeNew, Finset.card_singleton]
      rfl
    · next hji =>
      rw [h.inodeOther j hji]
      exact hinv.count j hj0 ((h.used_iff.mp hj).resolve_left hji)

end Made

/-! ## Open -/

theorem Linked.congr (h : Linked s) (hlink : linkOf s' = linkOf s)
    (hall : ∀ x, Allocated s' x ↔ Allocated s x) : Linked s' where
  used := fun b x hx => by
    rw [hlink] at hx ⊢
    rw [hall, hall]
    exact h.used b x hx
  once := by
    rw [hlink]
    exact h.once
  ranked := by
    rw [hlink]
    exact h.ranked
  top := (congrFun (congrFun hlink false) 0).trans h.top

theorem CountInv.congr (h : CountInv s) (hden : s'.dentry = s.dentry)
    (hmap : s'.dentryMap = s.dentryMap) (himap : s'.inodeMap = s.inodeMap)
    (hcount : ∀ j, (s'.inode j).count = (s.inode j).count) (htype : (s'.inode 0).type = .dir) :
    CountInv s' := by
  have hlink : linkOf s' = linkOf s := by
    funext b x
    rw [linkOf, linkOf, hden]
  have hall : ∀ x, Allocated s' x ↔ Allocated s x := fun x => by rw [Allocated, Allocated, hmap]
  have hused : ∀ j, InodeUsed s' j ↔ InodeUsed s j := fun j => by
    rw [InodeUsed, InodeUsed, himap]
  have hnames : ∀ j, namesOf s' j = namesOf s j := fun j => by rw [namesOf, namesOf, hmap, hden]
  exact
    { toLinked := h.toLinked.congr hlink hall
      lowDentry := hmap ▸ h.lowDentry
      lowInode := himap ▸ h.lowInode
      topUsed := (hall 0).mpr h.topUsed
      topInode := by
        rw [hden]
        exact h.topInode
      topDir := htype
      named := fun j => by
        rw [hused, hnames]
        exact h.named j
      count := fun j hj0 hj => by
        rw [hcount, hnames]
        exact h.count j hj0 ((hused j).mp hj) }

theorem CountInv.ofSetDir (h : CountInv s) (root : Nat) : CountInv (setDir s root) := by
  refine h.congr rfl rfl rfl (fun j => Kfs.setInode_field KfsInode.count fun _ => rfl) ?_
  by_cases h0 : 0 = (s.dentry root).inode
  · show ((s.setInode (s.dentry root).inode fun e => { e with type := .dir }).inode 0).type = .dir
    rw [h0, Kfs.setInode_inode]
  · show ((s.setInode (s.dentry root).inode fun e => { e with type := .dir }).inode 0).type = .dir
    rw [Kfs.setInode_inode_ne h0]
    exact h.topDir

/-- What is found in a directory is in use. -/
theorem Linked.found (h : Linked s) {fuel leaf : Nat} (hleaf : Allocated s leaf)
    (hfind : kfsFindLoop s name fuel leaf = some (some x)) : Allocated s x := by
  induction fuel generalizing leaf with
  | zero => exact absurd hfind (by simp [kfsFindLoop])
  | succ fuel ih =>
    rw [kfsFindLoop] at hfind
    split at hfind
    · obtain rfl := Option.some.inj (Option.some.inj hfind)
      exact hleaf
    · split at hfind
      · next hnext => exact ih (h.used false leaf hnext).2 hfind
      · exact absurd hfind (by simp)

theorem CountInv.openat (h : CountInv s) (hroot : Allocated s root)
    (hroom : kfsFind s root name = some none → Room s) {r : Nat × Kfs}
    (hopen : kfsOpenat s root name = some r) :
    CountInv r.2 ∧ Allocated r.2 r.1 ∧ ∀ x, Allocated s x → Allocated r.2 x := by
  rw [kfsOpenat] at hopen
  obtain ⟨found, hfind, hopen⟩ := Option.bind_eq_some_iff.mp hopen
  cases found with
  | some leaf =>
    obtain rfl := Option.some.inj hopen
    refine ⟨h.ofSetDir root, ?_, fun x hx => hx⟩
    rw [kfsFind] at hfind
    split at hfind
    · next hleaf => exact h.found (h.used true root hleaf).2 hfind
    · exact absurd hfind (by simp)
  | none =>
    have hinv := h.ofSetDir root
    have hi0 : InodeUsed s 0 := (h.named 0).mpr ⟨0, mem_namesOf.mpr ⟨h.topUsed, h.topInode⟩⟩
    obtain ⟨new, i, s', hcreate, hmade⟩ := kfsCreate_made (s := setDir s root) h.lowDentry
      h.lowInode hroot h.topUsed.2 hi0.2 (hroom hfind) name
    have hr : kfsCreate (setDir s root) root name = r := Option.some.inj hopen
    rw [← hr, hcreate]
    exact ⟨hmade.inv hinv hroot, hmade.allocated_iff.mpr (.inl rfl),
      fun x hx => hmade.allocated_iff.mpr (.inr hx)⟩

theorem CountInv.openLoop (fuel : Nat) (h : CountInv s) (hd : Allocated s d)
    (hroom : Available fuel next d s) {r : Nat × Kfs}
    (hopen : kfsOpenLoop fuel next d s = some r) :
    CountInv r.2 ∧ Allocated r.2 r.1 ∧ ∀ x, Allocated s x → Allocated r.2 x := by
  induction fuel generalizing s d next with
  | zero =>
    obtain rfl := Option.some.inj hopen
    exact ⟨h, hd, fun _ hx => hx⟩
  | succ fuel ih =>
    cases hget : kfsGetname next with
    | none =>
      rw [kfsOpenLoop, hget] at hopen
      obtain rfl := Option.some.inj hopen
      exact ⟨h, hd, fun _ hx => hx⟩
    | some p =>
      obtain ⟨name, rest⟩ := p
      rw [Available, hget] at hroom
      by_cases hlen : strlen name ≤ kfsMaxComponent
      · rw [kfsOpenLoop_next hget hlen] at hopen
        obtain ⟨q, hopenat, hrest⟩ := Option.bind_eq_some_iff.mp hopen
        obtain ⟨hinv, hq, hkept⟩ := h.openat hd hroom.1 hopenat
        obtain ⟨hinv', hr, hkept'⟩ := ih hinv hq (hroom.2 q hopenat) hrest
        exact ⟨hinv', hr, fun x hx => hkept' x (hkept x hx)⟩
      · rw [kfsOpenLoop] at hopen
        simp only [hget] at hopen
        rw [if_neg hlen] at hopen
        exact absurd hopen (by simp)

theorem CountInv.open_ (h : CountInv s) (hroom : OpenAvailable s path) {r : Option Nat × Kfs}
    (hopen : kfsOpen s path = some r) :
    CountInv r.2 ∧ (∀ d, r.1 = some d → Allocated r.2 d) ∧
      ∀ x, Allocated s x → Allocated r.2 x := by
  rw [kfsOpen] at hopen
  split at hopen
  · obtain rfl := Option.some.inj hopen
    exact ⟨h, fun d hd => absurd hd (by simp), fun _ hx => hx⟩
  · cases hget : kfsGetname path with
    | none =>
      rw [hget] at hopen
      obtain rfl := Option.some.inj hopen
      exact ⟨h, fun d hd => absurd hd (by simp), fun _ hx => hx⟩
    | some p =>
      simp only [hget] at hopen
      obtain ⟨q, hloop, hret⟩ := Option.bind_eq_some_iff.mp hopen
      obtain rfl := Option.some.inj hret
      obtain ⟨hinv, hq, hkept⟩ := h.openLoop _ h.topUsed (hroom p.1 p.2 hget) hloop
      refine ⟨hinv.congr rfl rfl rfl (fun _ => rfl) hinv.topDir, fun d hd => ?_, hkept⟩
      rw [← Option.some.inj hd]
      exact hq

/-! ## Link and unlink -/

/-- The tables after the dentry `y` of the inode `j` has been given the inode `i`. -/
structure Relinked (s : Kfs) (y i j : Nat) (s' : Kfs) : Prop where
  dentryMap : s'.dentryMap = s.dentryMap
  links : linkOf s' = linkOf s
  atInode : ∀ v, (s'.dentry v).inode = if v = y then i else (s.dentry v).inode
  inodeSet : ∀ k, s'.inodeMap.bmp.isSet k = (!decide (k = j) && s.inodeMap.bmp.isSet k)
  lowInode : Low s'.inodeMap kfsMaxInode
  inode : ∀ k, k ≠ j → s'.inode k =
    if k = i then { s.inode i with count := (s.inode i).count + 1 } else s.inode k

/-- `kfs_link` behind its two `kfs_open`. -/
theorem kfsLink_relinked (hlow : Low s.inodeMap kfsMaxInode) (y i j : Nat) :
    Relinked s y i j (kfsFreeInode ((s.setDentry y fun e => { e with inode := i }).setInode i
      fun e => { e with count := e.count + 1 }) j) where
  dentryMap := rfl
  links := by
    funext b v
    have hleaf : ((s.setDentry y fun e => { e with inode := i }).dentry v).leaf = (s.dentry v).leaf :=
      Kfs.setDentry_field KfsDentry.leaf fun _ => rfl
    have hnext : ((s.setDentry y fun e => { e with inode := i }).dentry v).next = (s.dentry v).next :=
      Kfs.setDentry_field KfsDentry.next fun _ => rfl
    cases b with
    | false => exact hnext
    | true => exact hleaf
  atInode := fun v => by
    show ((s.setDentry y fun e => { e with inode := i }).dentry v).inode = _
    split
    · next hv => rw [hv, Kfs.setDentry_dentry]
    · next hv => rw [Kfs.setDentry_dentry_ne hv]
  inodeSet := fun k => Bitmap.isSet_clear ..
  lowInode := hlow.free j
  inode := fun k hk => by
    rw [kfsFreeInode]
    simp only
    rw [Kfs.setInode_inode_ne hk]
    split
    · next hki => rw [hki, Kfs.setInode_inode]; rfl
    · next hki => rw [Kfs.setInode_inode_ne hki]; rfl

namespace Relinked

variable {y j k : Nat}

theorem allocated_iff (h : Relinked s y i j s') : Allocated s' x ↔ Allocated s x := by
  rw [Allocated, Allocated, h.dentryMap]

theorem used_iff (h : Relinked s y i j s') : InodeUsed s' k ↔ k ≠ j ∧ InodeUsed s k := by
  rw [InodeUsed, InodeUsed, h.inodeSet, Bool.and_eq_true, Bool.not_eq_true',
    decide_eq_false_iff_not]
  exact ⟨fun ⟨hlt, hne, hk⟩ => ⟨hne, hlt, hk⟩, fun ⟨hne, hlt, hk⟩ => ⟨hlt, hne, hk⟩⟩

/-- The name goes from the one inode to the other. -/
theorem namesOf_eq (h : Relinked s y i j s') (hy : Allocated s y) (hj : (s.dentry y).inode = j)
    (k : Nat) : namesOf s' k =
      if k = i then insert y (namesOf s i) else if k = j then (namesOf s j).erase y
      else namesOf s k := by
  ext v
  rw [mem_namesOf, h.allocated_iff, h.atInode]
  by_cases hv : v = y
  · subst hv
    rw [if_pos rfl, and_iff_right hy]
    by_cases hki : k = i
    · rw [if_pos hki]
      exact ⟨fun _ => Finset.mem_insert_self _ _, fun _ => hki.symm⟩
    · rw [if_neg hki]
      refine ⟨fun hc => absurd hc.symm hki, fun hc => ?_⟩
      split at hc
      · exact absurd hc (Finset.notMem_erase v _)
      · next hkj => exact absurd ((mem_namesOf.mp hc).2.symm.trans hj) hkj
  · rw [if_neg hv, ← mem_namesOf]
    split
    · next hki => rw [hki, Finset.mem_insert, or_iff_right hv]
    · split
      · next hkj => rw [hkj, Finset.mem_erase, and_iff_right hv]
      · rfl

/-- The only name of `j` becomes one more of `i`, and `j` is freed. -/
theorem inv (h : Relinked s y i j s') (hinv : CountInv s) (hy : Allocated s y)
    (hj : (s.dentry y).inode = j) (hij : i ≠ j) (hi0 : i ≠ 0) (hj0 : j ≠ 0)
    (hsrc : (namesOf s i).card ≤ 2) (hused : InodeUsed s i) (hdst : (namesOf s j).card = 1) :
    CountInv s' := by
  have hyj : y ∈ namesOf s j := mem_namesOf.mpr ⟨hy, hj⟩
  have hyi : y ∉ namesOf s i := fun hin => hij ((mem_namesOf.mp hin).2.symm.trans hj)
  have hnone : (namesOf s j).erase y = ∅ := by
    rw [← Finset.card_eq_zero, Finset.card_erase_of_mem hyj, hdst]
  exact
    { toLinked := hinv.toLinked.congr h.links fun v => h.allocated_iff
      lowDentry := h.dentryMap ▸ hinv.lowDentry
      lowInode := h.lowInode
      topUsed := h.allocated_iff.mpr hinv.topUsed
      topInode := by
        rw [h.atInode, if_neg, hinv.topInode]
        rintro rfl
        exact hj0 (hj.symm.trans hinv.topInode)
      topDir := by
        rw [h.inode 0 hj0.symm, if_neg hi0.symm]
        exact hinv.topDir
      named := fun k => by
        rw [h.used_iff, h.namesOf_eq hy hj]
        by_cases hki : k = i
        · rw [if_pos hki, hki]
          exact ⟨fun _ => Finset.insert_nonempty y _, fun _ => ⟨hij, hused⟩⟩
        · rw [if_neg hki]
          by_cases hkj : k = j
          · rw [if_pos hkj, hnone]
            exact ⟨fun hc => absurd hkj hc.1, fun hc => absurd hc Finset.not_nonempty_empty⟩
          · rw [if_neg hkj, and_iff_right hkj, hinv.named]
      count := fun k hk0 hk => by
        obtain ⟨hkj, hk⟩ := h.used_iff.mp hk
        have hcount := hinv.count k hk0 hk
        rw [h.namesOf_eq hy hj, h.inode k hkj]
        by_cases hki : k = i
        · subst hki
          rw [if_pos rfl, if_pos rfl, Finset.card_insert_of_notMem hyi, ← hcount]
          have hlt : (s.inode k).count.toNat < 3 := by omega
          rw [BitVec.toNat_add, show (1 : BitVec 2).toNat = 1 from rfl]
          exact Nat.mod_eq_of_lt (by omega)
        · rw [if_neg hki, if_neg hki, if_neg hkj]
          exact hcount }

end Relinked

/-- The loop of `kfs_free_dentry` ends at the link to the dentry: the leaf of the directory, or
the next of the dentry that it returns. -/
theorem Linked.search (h : Linked s) (hd0 : d ≠ 0) (first : Nat) {fuel curr prev p : Nat}
    (hat : curr = 0 ∨ prev = 0 ∧ curr = first ∨ prev ≠ 0 ∧ linkOf s false prev = curr)
    (hsearch : kfsFreeDentrySearch s d fuel curr prev = some p) :
    p = 0 ∧ first = d ∨ p ≠ 0 ∧ linkOf s false p = d := by
  induction fuel generalizing curr prev with
  | zero => exact absurd hsearch (by simp [kfsFreeDentrySearch])
  | succ fuel ih =>
    rw [kfsFreeDentrySearch] at hsearch
    by_cases hcurr : curr = d
    · rw [if_neg (not_not.mpr hcurr)] at hsearch
      obtain rfl := Option.some.inj hsearch
      rcases hat with h0 | ⟨hprev, hfirst⟩ | ⟨hprev, hlink⟩
      · exact absurd (hcurr.symm.trans h0) hd0
      · exact .inl ⟨hprev, hfirst.symm.trans hcurr⟩
      · exact .inr ⟨hprev, hlink.trans hcurr⟩
    · rw [if_pos hcurr] at hsearch
      refine ih ?_ hsearch
      by_cases h0 : curr = 0
      · -- the loop does not leave the dentry 0
        left
        rw [h0]
        exact h.top
      · exact .inr (.inr ⟨h0, rfl⟩)

/-- One link of the dentry `q` is set, the other one stays. -/
theorem linkOf_setDentry {f : KfsDentry → KfsDentry} {c : Bool} {v : Nat} (s : Kfs) (q : Nat)
    (hset : (if c then (f (s.dentry q)).leaf else (f (s.dentry q)).next) = v)
    (hkept : (if c then (f (s.dentry q)).next else (f (s.dentry q)).leaf) = linkOf s (!c) q)
    (b : Bool) (x : Nat) :
    linkOf (s.setDentry q f) b x = if b = c ∧ x = q then v else linkOf s b x := by
  by_cases hx : x = q
  · subst hx
    rw [linkOf, Kfs.setDentry_dentry]
    cases b <;> cases c <;> simp_all
  · have hnot : ¬ (b = c ∧ x = q) := fun hc => hx hc.2
    rw [linkOf, Kfs.setDentry_dentry_ne hx, if_neg hnot, linkOf]

/-- The tables without the dentry `d`; the link to it goes to the next one. -/
structure Unhung (s : Kfs) (d : Nat) (s' : Kfs) : Prop where
  links : ∀ b x, linkOf s' b x =
    if x = d then 0 else if linkOf s b x = d then linkOf s false d else linkOf s b x
  atInode : ∀ x, x ≠ d → (s'.dentry x).inode = (s.dentry x).inode
  dentrySet : ∀ k, s'.dentryMap.bmp.isSet k = (!decide (k = d) && s.dentryMap.bmp.isSet k)
  lowDentry : Low s'.dentryMap kfsMaxDentry
  inodeMap : s'.inodeMap = s.inodeMap
  inode : s'.inode = s.inode

theorem kfsFreeDentry_unhung (h : CountInv s) (hd0 : d ≠ 0) (hfree : kfsFreeDentry s d = some s') :
    Unhung s d s' := by
  rw [kfsFreeDentry] at hfree
  obtain ⟨p, hsearch, hfree⟩ := Option.bind_eq_some_iff.mp hfree
  have hlink := h.toLinked.search hd0 (s.dentry (s.dentry d).root).leaf
    (.inr (.inl ⟨rfl, rfl⟩)) hsearch
  -- the dentry and the field that link to `d`
  obtain ⟨b, q, hq, s₁, hs₁, hmap, himap, hino, hinode, hother⟩ : ∃ b q, linkOf s b q = d ∧
      ∃ s₁, s₁ = (if p = 0 then s.setDentry (s.dentry d).root fun e =>
          { e with leaf := (s.dentry d).next }
        else s.setDentry p fun e => { e with next := (s.dentry d).next }) ∧
      s₁.dentryMap = s.dentryMap ∧ s₁.inodeMap = s.inodeMap ∧ s₁.inode = s.inode ∧
      (∀ x, (s₁.dentry x).inode = (s.dentry x).inode) ∧
      ∀ b' x, linkOf s₁ b' x = if b' = b ∧ x = q then linkOf s false d else linkOf s b' x := by
    rcases hlink with ⟨rfl, hfirst⟩ | ⟨hp, hnext⟩
    · refine ⟨true, (s.dentry d).root, hfirst, _, rfl, ?_⟩
      rw [if_pos rfl]
      exact ⟨rfl, rfl, rfl, fun x => Kfs.setDentry_field KfsDentry.inode fun _ => rfl,
        linkOf_setDentry s _ rfl rfl⟩
    · refine ⟨false, p, hnext, _, rfl, ?_⟩
      rw [if_neg hp]
      exact ⟨rfl, rfl, rfl, fun x => Kfs.setDentry_field KfsDentry.inode fun _ => rfl,
        linkOf_setDentry s _ rfl rfl⟩
  simp only [← hs₁] at hfree
  obtain rfl := Option.some.inj hfree
  refine ⟨fun b' x => ?_, fun x hx => ?_, fun k => ?_, ?_, himap, hino⟩
  · by_cases hx : x = d
    · rw [if_pos hx, hx, linkOf]
      simp only
      rw [Kfs.setDentry_dentry]
      cases b' <;> rfl
    · have hkept : linkOf { s₁.setDentry d fun _ => ⟨0, 0, 0, 0, fun _ => 0⟩ with
          dentryMap := kfsFreeBitmap s₁.dentryMap d } b' x = linkOf s₁ b' x := by
        unfold linkOf
        simp only
        rw [Kfs.setDentry_dentry_ne hx]
      rw [if_neg hx]
      refine hkept.trans ?_
      rw [hother]
      by_cases hbq : b' = b ∧ x = q
      · rw [if_pos hbq, hbq.1, hbq.2, if_pos hq]
      · rw [if_neg hbq, if_neg fun hc => hbq ?_]
        exact h.once b' b x q (hc.trans hq.symm) (hc ▸ hd0)
  · show ((s₁.setDentry d fun _ => ⟨0, 0, 0, 0, fun _ => 0⟩).dentry x).inode = _
    rw [Kfs.setDentry_dentry_ne hx, hinode]
  · show (kfsFreeBitmap s₁.dentryMap d).bmp.isSet k = _
    rw [hmap]
    exact Bitmap.isSet_clear ..
  · show Low (kfsFreeBitmap s₁.dentryMap d) kfsMaxDentry
    rw [hmap]
    exact h.lowDentry.free d

namespace Unhung

theorem allocated_iff (h : Unhung s d s') : Allocated s' x ↔ x ≠ d ∧ Allocated s x := by
  rw [Allocated, Allocated, h.dentrySet, Bool.and_eq_true, Bool.not_eq_true',
    decide_eq_false_iff_not]
  exact and_left_comm

/-- A link that is left was there, or goes over `d`. -/
theorem linkOf_cases (h : Unhung s d s') (hlink : linkOf s' b x ≠ 0) : x ≠ d ∧
    (linkOf s b x = d ∧ linkOf s' b x = linkOf s false d ∨
      linkOf s b x ≠ d ∧ linkOf s' b x = linkOf s b x) := by
  rw [h.links] at hlink ⊢
  split at hlink
  · exact absurd rfl hlink
  · next hx =>
    rw [if_neg hx]
    refine ⟨hx, ?_⟩
    split
    · next hd => exact .inl ⟨hd, rfl⟩
    · next hd => exact .inr ⟨hd, rfl⟩

theorem linked (h : Unhung s d s') (hl : Linked s) (hd0 : d ≠ 0) : Linked s' where
  used := fun b x hlink => by
    obtain ⟨rank, hrank⟩ := hl.ranked
    obtain ⟨hx, ⟨hd, heq⟩ | ⟨hd, heq⟩⟩ := h.linkOf_cases hlink
    · rw [heq] at hlink ⊢
      have hlt := hrank false d hlink
      refine ⟨h.allocated_iff.mpr ⟨hx, (hl.used b x (hd ▸ hd0)).1⟩,
        h.allocated_iff.mpr ⟨fun hc => ?_, (hl.used false d hlink).2⟩⟩
      rw [hc] at hlt
      exact Nat.lt_irrefl _ hlt
    · rw [heq] at hlink ⊢
      obtain ⟨hall, hall'⟩ := hl.used b x hlink
      exact ⟨h.allocated_iff.mpr ⟨hx, hall⟩, h.allocated_iff.mpr ⟨hd, hall'⟩⟩
  once := fun b b' x x' hsame hlink => by
    have hlink' : linkOf s' b' x' ≠ 0 := hsame ▸ hlink
    obtain ⟨hx, ⟨hd, heq⟩ | ⟨hd, heq⟩⟩ := h.linkOf_cases hlink <;>
      obtain ⟨hx', ⟨hd', heq'⟩ | ⟨hd', heq'⟩⟩ := h.linkOf_cases hlink'
    · exact hl.once b b' x x' (hd.trans hd'.symm) (hd ▸ hd0)
    · obtain ⟨-, rfl⟩ := hl.once false b' d x' (by rw [← heq, hsame, heq']) (heq ▸ hlink)
      exact absurd rfl hx'
    · obtain ⟨-, rfl⟩ := hl.once b false x d (by rw [← heq, hsame, heq']) (heq ▸ hlink)
      exact absurd rfl hx
    · exact hl.once b b' x x' (by rw [← heq, hsame, heq']) (heq ▸ hlink)
  ranked := by
    obtain ⟨rank, hrank⟩ := hl.ranked
    refine ⟨rank, fun b x hlink => ?_⟩
    obtain ⟨hx, ⟨hd, heq⟩ | ⟨hd, heq⟩⟩ := h.linkOf_cases hlink
    · rw [heq] at hlink ⊢
      have h1 := hrank false d hlink
      have h2 := hrank b x (hd ▸ hd0)
      rw [hd] at h2
      omega
    · rw [heq] at hlink ⊢
      exact hrank b x hlink
  top := by
    have htop : linkOf s false 0 = 0 := hl.top
    have hnext := h.links false 0
    rw [if_neg hd0.symm, htop, if_neg hd0.symm] at hnext
    exact hnext

theorem namesOf_eq (h : Unhung s d s') (k : Nat) : namesOf s' k = (namesOf s k).erase d := by
  ext v
  rw [mem_namesOf, h.allocated_iff, Finset.mem_erase, mem_namesOf, and_assoc]
  refine and_congr_right fun hv => ?_
  rw [h.atInode v hv]

/-- One name less; another one is left. -/
theorem inv (h : Unhung s d s') (hinv : CountInv s) (hd : Allocated s d)
    (hi : (s.dentry d).inode = i) (hi0 : i ≠ 0) (hmore : 2 ≤ (namesOf s i).card) :
    CountInv (s'.setInode i fun e => { e with count := e.count - 1 }) := by
  have hd0 : d ≠ 0 := by
    rintro rfl
    exact hi0 (hi.symm.trans hinv.topInode)
  have hdi : d ∈ namesOf s i := mem_namesOf.mpr ⟨hd, hi⟩
  have hnames : ∀ k, namesOf (s'.setInode i fun e => { e with count := e.count - 1 }) k
      = if k = i then (namesOf s i).erase d else namesOf s k := by
    intro k
    refine (h.namesOf_eq k).trans ?_
    split
    · next hk => rw [hk]
    · next hk =>
      exact Finset.erase_eq_of_notMem fun hin => hk ((mem_namesOf.mp hin).2.symm.trans hi)
  have hcard : ((namesOf s i).erase d).card = (namesOf s i).card - 1 := Finset.card_erase_of_mem hdi
  have hused : ∀ k, InodeUsed (s'.setInode i fun e => { e with count := e.count - 1 }) k ↔
      InodeUsed s k := fun k => by
    rw [InodeUsed, InodeUsed, Kfs.setInode_inodeMap, h.inodeMap]
  exact
    { toLinked := (h.linked hinv.toLinked hd0).congr rfl fun _ => Iff.rfl
      lowDentry := h.lowDentry
      lowInode := by
        show Low s'.inodeMap kfsMaxInode
        rw [h.inodeMap]
        exact hinv.lowInode
      topUsed := h.allocated_iff.mpr ⟨hd0.symm, hinv.topUsed⟩
      topInode := (h.atInode 0 hd0.symm).trans hinv.topInode
      topDir := by
        rw [Kfs.setInode_inode_ne hi0.symm, h.inode]
        exact hinv.topDir
      named := fun k => by
        rw [hused, hnames]
        split
        · next hk =>
          rw [hk, hinv.named]
          exact ⟨fun _ => Finset.card_pos.mp (by omega), fun _ => ⟨d, hdi⟩⟩
        · exact hinv.named k
      count := fun k hk0 hk => by
        have hcount := hinv.count k hk0 ((hused k).mp hk)
        rw [hnames]
        split
        · next hki =>
          subst hki
          rw [Kfs.setInode_inode, h.inode, hcard, ← hcount]
          have hle : (1 : BitVec 2) ≤ (s.inode k).count := by
            rw [BitVec.le_def, hcount]
            exact Nat.le_trans (by decide) hmore
          exact BitVec.toNat_sub_of_le hle
        · next hki =>
          rw [Kfs.setInode_inode_ne hki, h.inode]
          exact hcount }

end Unhung

/-! ## Runs -/

theorem countInv_start : CountInv kfsStart := by
  have hlink : ∀ b x, linkOf kfsStart b x = 0 := fun b x => by cases b <;> rfl
  have hset : ∀ k, Bitmap.isSet (Bitmap.set (fun _ => 0) 0) k = decide (k = 0) := fun k => by
    rw [Bitmap.isSet_set, Bitmap.isSet]
    simp
  have hall : ∀ d, Allocated kfsStart d ↔ d = 0 := fun d => by
    rw [Allocated, kfsStart, hset, decide_eq_true_eq]
    exact ⟨And.right, fun h => ⟨by rw [h]; decide, h⟩⟩
  have hused : ∀ i, InodeUsed kfsStart i ↔ i = 0 := fun i => by
    rw [InodeUsed, kfsStart, hset, decide_eq_true_eq]
    exact ⟨And.right, fun h => ⟨by rw [h]; decide, h⟩⟩
  exact
    { used := fun b x hx => absurd (hlink b x) hx
      once := fun b b' x x' _ hx => absurd (hlink b x) hx
      ranked := ⟨fun _ => 0, fun b x hx => absurd (hlink b x) hx⟩
      top := rfl
      lowDentry := kfsInv_start.lowDentry
      lowInode := kfsInv_start.lowInode
      topUsed := (hall 0).mpr rfl
      topInode := rfl
      topDir := rfl
      named := fun i => by
        rw [hused]
        constructor
        · rintro rfl
          exact ⟨0, mem_namesOf.mpr ⟨(hall 0).mpr rfl, rfl⟩⟩
        · rintro ⟨d, hd⟩
          exact (mem_namesOf.mp hd).2.symm
      count := fun i hi0 hi => absurd ((hused i).mp hi) hi0 }

theorem CountInv.call {c : KfsOp} (h : CountInv s) (hok : CountStepOk s c)
    (hc : kfsOp s c = some s') : CountInv s' := by
  cases c with
  | open_ path =>
    obtain ⟨r, hopen, rfl⟩ := Option.map_eq_some_iff.mp hc
    exact (h.open_ hok hopen).1
  | link src dst =>
    obtain ⟨r, hlink, rfl⟩ := Option.map_eq_some_iff.mp hc
    obtain ⟨hsrc, hok⟩ := hok
    obtain ⟨⟨a, s₁⟩, hopen₁, hopens⟩ := Option.bind_eq_some_iff.mp hlink
    obtain ⟨⟨b, s₂⟩, hopen₂, hsrcs⟩ := Option.bind_eq_some_iff.mp hopens
    obtain ⟨x, rfl, hdsts⟩ := Option.bind_eq_some_iff.mp hsrcs
    obtain ⟨y, rfl, hends⟩ := Option.bind_eq_some_iff.mp hdsts
    obtain ⟨hinv₁, hx, -⟩ := h.open_ hsrc hopen₁
    obtain ⟨hdst, hok⟩ := hok x s₁ hopen₁
    obtain ⟨hinv₂, hy, hkept⟩ := hinv₁.open_ hdst hopen₂
    obtain ⟨hxy, hx0, hy0, hcard, hone⟩ := hok y s₂ hopen₂
    have hxi : x ∈ namesOf s₂ (s₂.dentry x).inode := mem_namesOf.mpr ⟨hkept x (hx x rfl), rfl⟩
    have hij : (s₂.dentry x).inode ≠ (s₂.dentry y).inode := by
      intro heq
      obtain ⟨z, hz⟩ := Finset.card_eq_one.mp hone
      have hyj : y ∈ namesOf s₂ (s₂.dentry y).inode := mem_namesOf.mpr ⟨hy y rfl, rfl⟩
      rw [heq, hz, Finset.mem_singleton] at hxi
      rw [hz, Finset.mem_singleton] at hyj
      exact hxy (hxi.trans hyj.symm)
    rw [← Option.some.inj hends]
    exact (kfsLink_relinked hinv₂.lowInode y _ _).inv hinv₂ (hy y rfl) rfl hij hx0 hy0 hcard
      ((hinv₂.named _).mpr ⟨x, hxi⟩) hone
  | unlink path =>
    obtain ⟨hpath, hok⟩ := hok
    obtain ⟨⟨r, s₁⟩, hopen, hrest⟩ := Option.bind_eq_some_iff.mp hc
    obtain ⟨d, rfl, hfrees⟩ := Option.bind_eq_some_iff.mp hrest
    obtain ⟨hi0, hmore⟩ := hok d s₁ hopen
    obtain ⟨hinv, hd, -⟩ := h.open_ hpath hopen
    obtain ⟨s₂, hfree, hends⟩ := Option.bind_eq_some_iff.mp hfrees
    have hd0 : d ≠ 0 := by
      rintro rfl
      exact hi0 hinv.topInode
    have hunhung := kfsFreeDentry_unhung hinv hd0 hfree
    have hcount := hinv.count _ hi0 ((hinv.named _).mpr (Finset.card_pos.mp (Nat.lt_of_lt_of_le Nat.zero_lt_two hmore)))
    have hne : (s₂.inode (s₁.dentry d).inode).count ≠ 0 := by
      rw [hunhung.inode]
      intro h0
      rw [h0] at hcount
      rw [← hcount] at hmore
      exact absurd hmore (by decide)
    simp only [if_neg hne] at hends
    rw [← Option.some.inj hends]
    exact hunhung.inv hinv (hd d rfl) rfl hi0 hmore
  | openat _ _ => exact hok.elim
  | write _ _ _ => exact hok.elim
  | setSize _ _ => exact hok.elim
  | chmode _ _ => exact hok.elim
  | chowner _ _ => exact hok.elim
  | chmtime _ _ => exact hok.elim

theorem CountRun.inv (h : CountRun s) : CountInv s := by
  induction h with
  | start => exact countInv_start
  | call _ hok hc ih => exact ih.call hok hc

/-- In such a run the count of each file is the number of its names, and the inodes in use
are those that have a name. -/
theorem countRun_exact (h : CountRun s) : CountsExact s := h.inv.exact

/-- `/g`. -/
def slashG : CStr := ⟨[slash, 103], by decide⟩

/-- A path with one letter behind the slash needs one dentry and one inode. -/
theorem openAvailable_one {first last w rest : CStr} (hget : kfsGetname path = some (first, last))
    (hlast : kfsGetname last = some (w, rest)) (hlen : strlen last = 1) (hroom : Room s) :
    OpenAvailable s path := by
  intro name next heq
  rw [hget, Option.some.injEq, Prod.mk.injEq] at heq
  rw [← heq.2, hlen, Available]
  simp only [hlast]
  exact ⟨fun _ => hroom, fun _ _ => trivial⟩

/-- `/g` becomes a second name of `/f`. -/
theorem countRun_exact_link : ∃ s, kfsOp kfsStart (.link slashF slashG) = some s ∧
    namesOf s 1 = {1, 2} ∧ CountsExact s := by
  have hf : kfsGetname slashF = some (⟨[], by decide⟩, nameF) := by decide
  have hf' : kfsGetname nameF = some (nameF, ⟨[], by decide⟩) := by decide
  have hg : kfsGetname slashG = some (⟨[], by decide⟩, nameG) := by decide
  have hg' : kfsGetname nameG = some (nameG, ⟨[], by decide⟩) := by decide
  have hfirst : (kfsOpen kfsStart slashF).map (fun r =>
      (r.1, r.2.dentryMap.bmp.isSet 2, r.2.inodeMap.bmp.isSet 2)) = some (some 1, false, false) := by
    decide +kernel
  have hsecond : ((kfsOpen kfsStart slashF).bind fun r => kfsOpen r.2 slashG).map (fun r =>
      (r.1, (r.2.dentry 1).inode, (r.2.dentry 2).inode, (namesOf r.2 1).card, (namesOf r.2 2).card))
      = some (some 2, 1, 2, 1, 1) := by decide +kernel
  have hlink : (kfsOp kfsStart (.link slashF slashG)).map (fun s => namesOf s 1) = some {1, 2} := by
    decide +kernel
  obtain ⟨s, hrun, hnames⟩ := Option.map_eq_some_iff.mp hlink
  have hok : CountStepOk kfsStart (.link slashF slashG) := by
    refine ⟨openAvailable_one hf hf' rfl room_start, fun x s₁ hopen₁ => ?_⟩
    rw [hopen₁, Option.map_some, Option.some.injEq, Prod.mk.injEq, Prod.mk.injEq] at hfirst
    obtain ⟨hx, hd2, hi2⟩ := hfirst
    refine ⟨openAvailable_one hg hg' rfl ⟨⟨2, by decide, hd2⟩, 2, by decide, hi2⟩,
      fun y s₂ hopen₂ => ?_⟩
    rw [hopen₁, Option.bind_some, hopen₂, Option.map_some, Option.some.injEq] at hsecond
    simp only [Prod.mk.injEq] at hsecond
    obtain ⟨hy, hinode₁, hinode₂, hcard₁, hcard₂⟩ := hsecond
    obtain rfl : x = 1 := Option.some.inj hx
    obtain rfl : y = 2 := Option.some.inj hy
    rw [hinode₁, hinode₂, hcard₁, hcard₂]
    decide
  exact ⟨s, hrun, hnames, countRun_exact (.call .start hok hrun)⟩

/-- The only name of `/f` is removed, and its inode stays in use. -/
theorem kfsUnlink_keeps_inode : ∃ s s', kfsOp kfsStart (.open_ slashF) = some s ∧
    kfsOp s (.unlink slashF) = some s' ∧ InodeUsed s' 1 ∧ namesOf s' 1 = ∅ ∧ ¬ CountsExact s' := by
  have hval : ((kfsOp kfsStart (.open_ slashF)).bind fun s => kfsOp s (.unlink slashF)).map
      (fun s => (s.inodeMap.bmp.isSet 1, namesOf s 1)) = some (true, ∅) := by decide +kernel
  obtain ⟨s', hrun, hfacts⟩ := Option.map_eq_some_iff.mp hval
  obtain ⟨s, hopen, hunlink⟩ := Option.bind_eq_some_iff.mp hrun
  rw [Prod.mk.injEq] at hfacts
  have hused : InodeUsed s' 1 := ⟨by decide, hfacts.1⟩
  refine ⟨s, s', hopen, hunlink, hused, hfacts.2, fun h => ?_⟩
  have hne := (h.used 1).mp hused
  rw [hfacts.2] at hne
  exact Finset.not_nonempty_empty hne

end

end Ko6.Fs
