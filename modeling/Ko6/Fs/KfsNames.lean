import Ko6.Fs.KfsExhaust
import Ko6.Fs.KfsPages
import Ko6.Lib.Tokens

set_option autoImplicit false

/-!
# Fs: the names of KFS

`kfs_open` walks the components of a path and makes the ones that it does not find.
`kfs_getname` gives it components of up to 31 characters, but a dentry has room for 27
and a NUL: `kfs_strcpy` writes the NUL of a longer name over the next dentry, and drops
what does not fit.  With shorter names the dentry of a path is a function of its
components: `nameRun_ok` is about all calls that keep to them.
-/

namespace Ko6.Fs

open Ko6.Lib Ko6.Common

/-! ## Model -/

/-- `kfs_link`; the dentry of a path that is not absolute is outside the table. -/
def kfsLink (s : Kfs) (srcName dstName : CStr) : Option (Nat × Kfs) := do
  let (srcDentry, s) ← kfsOpen s srcName
  let (dstDentry, s) ← kfsOpen s dstName
  let srcDentry ← srcDentry
  let dstDentry ← dstDentry
  let srcInode := (s.dentry srcDentry).inode
  let dstInode := (s.dentry dstDentry).inode
  let s := s.setDentry dstDentry fun e => { e with inode := srcInode }
  let s := s.setInode srcInode fun e => { e with count := e.count + 1 }
  some (dstDentry, kfsFreeInode s dstInode)

/-- `kfs_chmode`, `kfs_chowner` and `kfs_chmtime`. -/
def kfsChmode (s : Kfs) (inode : Nat) (mode : BitVec 6) : Kfs :=
  s.setInode inode fun e => { e with mode := mode }

def kfsChowner (s : Kfs) (inode : Nat) (owner : BitVec 2) : Kfs :=
  s.setInode inode fun e => { e with owner := owner }

def kfsChmtime (s : Kfs) (inode : Nat) (mtime : BitVec 8) : Kfs :=
  s.setInode inode fun e => { e with mtime := mtime }

/-- The calls that change the tables. -/
inductive KfsOp where
  | open_ (path : CStr)
  | openat (root : Nat) (name : CStr)
  | link (src dst : CStr)
  | unlink (path : CStr)
  | write (dentry pgOffset : Nat) (buf : KfsBuf)
  | setSize (dentry newsize : Nat)
  | chmode (inode : Nat) (mode : BitVec 6)
  | chowner (inode : Nat) (owner : BitVec 2)
  | chmtime (inode : Nat) (mtime : BitVec 8)

/-- The tables after a call; `none` when it does not return. -/
def kfsOp (s : Kfs) : KfsOp → Option Kfs
  | .open_ path => (kfsOpen s path).map Prod.snd
  | .openat root name => (kfsOpenat s root name).map Prod.snd
  | .link src dst => (kfsLink s src dst).map Prod.snd
  | .unlink path => kfsUnlink s path
  | .write d k buf => some (kfsWrite s d k buf).2
  | .setSize d n => some (kfsSetSize s d n)
  | .chmode i mode => some (kfsChmode s i mode)
  | .chowner i owner => some (kfsChowner s i owner)
  | .chmtime i mtime => some (kfsChmtime s i mtime)

/-! ## The tree below `/` -/

/-- The dentry is in the list of the directory. -/
def Listed (s : Kfs) (d x : Nat) : Prop := ∃ l, Chain 0 (nextOf s) (s.dentry d).leaf l ∧ x ∈ l

/-- The dentry is reached from `/` through the lists.  What stood in a directory that has
been removed is not. -/
inductive InTree (s : Kfs) : Nat → Prop where
  | top : InTree s 0
  | leaf {d x : Nat} : InTree s d → Listed s d x → InTree s x

/-- The lists from `/` down are disjoint and of dentries in use, with distinct names that
fit in their fields. -/
structure DirTree (s : Kfs) : Prop where
  top : Allocated s 0
  lists : ∀ d, InTree s d → ∃ l, ListOf s d l
  named : ∀ x, InTree s x → x ≠ 0 → ∃ w, strlen w < kfsMaxName ∧ HasName s x w
  distinct : ∀ d x y w, InTree s d → Listed s d x → Listed s d y → HasName s x w →
    HasName s y w → x = y

/-- The components that lead to a dentry. -/
inductive NamesTo (s : Kfs) : Nat → List (List (BitVec 8)) → Prop where
  | top : NamesTo s 0 []
  | leaf {d x : Nat} {w : CStr} {ws : List (List (BitVec 8))} : NamesTo s d ws → Listed s d x →
      HasName s x w → NamesTo s x (ws ++ [w.chars])

section
variable {s s' : Kfs} {d x y new root : Nat} {w name : CStr} {l : List Nat}
  {ws ws' : List (List (BitVec 8))}

theorem ListOf.listed_iff (h : ListOf s d l) : Listed s d x ↔ x ∈ l := by
  constructor
  · rintro ⟨l', hchain, hx⟩
    rwa [h.chain.unique hchain]
  · exact fun hx => ⟨l, h.chain, hx⟩

theorem NamesTo.inTree (h : NamesTo s d ws) : InTree s d := by
  induction h with
  | top => exact .top
  | leaf _ hlisted _ ih => exact .leaf ih hlisted

/-- The last component is the name of a leaf. -/
theorem NamesTo.snoc (h : NamesTo s x (ws ++ [name.chars])) :
    ∃ d, NamesTo s d ws ∧ Listed s d x ∧ HasName s x name := by
  generalize hsnoc : ws ++ [name.chars] = ws' at h
  cases h with
  | top => exact absurd hsnoc (by simp)
  | @leaf d _ w ws hd hlisted hw =>
    obtain ⟨rfl, hlast⟩ := List.append_inj' hsnoc rfl
    have hname : name = w := by
      obtain ⟨chars, hnz⟩ := name
      obtain ⟨chars', hnz'⟩ := w
      obtain rfl : chars = chars' := List.singleton_inj.mp hlast
      rfl
    exact ⟨d, hd, hlisted, hname ▸ hw⟩

/-- The first components lead to a directory on the way. -/
theorem NamesTo.first (h : NamesTo s x ws) : ∀ us vs, ws = us ++ vs → ∃ d, NamesTo s d us := by
  induction h with
  | top =>
    intro us vs heq
    obtain ⟨rfl, -⟩ := List.append_eq_nil_iff.mp heq.symm
    exact ⟨0, .top⟩
  | @leaf d x w ws hd hlisted hw ih =>
    intro us vs heq
    rcases List.eq_nil_or_concat vs with rfl | ⟨vs, v, rfl⟩
    · rw [List.append_nil] at heq
      exact ⟨x, heq ▸ hd.leaf hlisted hw⟩
    · rw [List.concat_eq_append, ← List.append_assoc] at heq
      exact ih us vs (List.append_inj' heq rfl).1

namespace DirTree

theorem isLeaf (h : DirTree s) (hd : InTree s d) (hx : Listed s d x) : IsLeaf s d x := by
  obtain ⟨l, hl⟩ := h.lists d hd
  exact hl.leaf x (hl.listed_iff.mp hx)

/-- A dentry of the tree is `/` or listed in the directory that its `root` names. -/
theorem listed_root (h : DirTree s) (hx : InTree s x) (hx0 : x ≠ 0) :
    InTree s (s.dentry x).root ∧ Listed s (s.dentry x).root x := by
  cases hx with
  | top => exact absurd rfl hx0
  | leaf hd hlisted =>
    have hroot := (h.isLeaf hd hlisted).2.2
    rw [hroot]
    exact ⟨hd, hlisted⟩

theorem allocated (h : DirTree s) (hx : InTree s x) : Allocated s x := by
  cases hx with
  | top => exact h.top
  | leaf hd hlisted => exact (h.isLeaf hd hlisted).1

theorem strlen_lt (h : DirTree s) (hx : InTree s x) (hx0 : x ≠ 0) (hw : HasName s x w) :
    strlen w < kfsMaxName := by
  obtain ⟨w₀, hlt, hw₀⟩ := h.named x hx hx0
  rwa [hw.unique hw₀]

/-- Each dentry of the tree has components that lead to it. -/
theorem exists_names (h : DirTree s) (hx : InTree s x) : ∃ ws, NamesTo s x ws := by
  induction hx with
  | top => exact ⟨[], .top⟩
  | @leaf d x hd hlisted ih =>
    obtain ⟨ws, hws⟩ := ih
    obtain ⟨w, -, hw⟩ := h.named x (.leaf hd hlisted) (h.isLeaf hd hlisted).2.1
    exact ⟨_, hws.leaf hlisted hw⟩

/-- The components are strings that fit in the field. -/
theorem component (h : DirTree s) (hx : NamesTo s x ws) :
    ∀ v ∈ ws, ∃ w : CStr, w.chars = v ∧ strlen w < kfsMaxName := by
  induction hx with
  | top => exact fun v hv => absurd hv List.not_mem_nil
  | @leaf d x w ws hd hlisted hw ih =>
    intro v hv
    rcases List.mem_append.mp hv with hv | hv
    · exact ih v hv
    · rw [List.mem_singleton.mp hv]
      have hx0 := (h.isLeaf hd.inTree hlisted).2.1
      exact ⟨w, rfl, h.strlen_lt (.leaf hd.inTree hlisted) hx0 hw⟩

/-- They are determined by the dentry, -/
theorem names_unique (h : DirTree s) (hx : NamesTo s x ws) (hx' : NamesTo s x ws') : ws = ws' := by
  induction hx generalizing ws' with
  | top =>
    cases hx' with
    | top => rfl
    | leaf hd hlisted _ => exact absurd rfl (h.isLeaf hd.inTree hlisted).2.1
  | @leaf d x w ws hd hlisted hw ih =>
    obtain ⟨-, hx0, hroot⟩ := h.isLeaf hd.inTree hlisted
    cases hx' with
    | top => exact absurd rfl hx0
    | @leaf d' _ w' ws' hd' hlisted' hw' =>
      have hroot' := (h.isLeaf hd'.inTree hlisted').2.2
      obtain rfl : d = d' := hroot.symm.trans hroot'
      rw [ih hd', hw.unique hw']

/-- and the dentry by them. -/
theorem dentry_unique (h : DirTree s) (hx : NamesTo s x ws) (hy : NamesTo s y ws) : x = y := by
  induction hx generalizing y with
  | top =>
    generalize hnil : ([] : List (List (BitVec 8))) = ws at hy
    cases hy with
    | top => rfl
    | leaf _ _ _ => exact absurd hnil (by simp)
  | @leaf d x w ws hd hlisted hw ih =>
    obtain ⟨d', hd', hlisted', hw'⟩ := hy.snoc
    obtain rfl := ih hd'
    exact h.distinct d x y w hd.inTree hlisted hlisted' hw hw'

/-- The last component is the name of a leaf of the directory of those before it. -/
theorem last (h : DirTree s) (hd : NamesTo s d ws) (hx : NamesTo s x (ws ++ [name.chars])) :
    Listed s d x ∧ HasName s x name := by
  obtain ⟨d', hd', hlisted, hname⟩ := hx.snoc
  obtain rfl := h.dentry_unique hd hd'
  exact ⟨hlisted, hname⟩

/-- The search in a directory. -/
theorem find (h : DirTree s) (hd : InTree s d) (name : CStr) :
    (∃ x, kfsFind s d name = some (some x) ∧ Listed s d x ∧ HasName s x name) ∨
      (kfsFind s d name = some none ∧ ∀ x, Listed s d x → ¬ HasName s x name) := by
  obtain ⟨l, hl⟩ := h.lists d hd
  rcases hl.find name with ⟨x, hx, heq, hw⟩ | ⟨heq, hnone⟩
  · exact .inl ⟨x, heq, hl.listed_iff.mpr hx, hw⟩
  · exact .inr ⟨heq, fun x hx => hnone x (hl.listed_iff.mp hx)⟩

end DirTree

/-- The dentries are the same but for their inodes. -/
structure SameLinks (s s' : Kfs) : Prop where
  dentryMap : s'.dentryMap = s.dentryMap
  root : ∀ x, (s'.dentry x).root = (s.dentry x).root
  next : ∀ x, (s'.dentry x).next = (s.dentry x).next
  leaf : ∀ x, (s'.dentry x).leaf = (s.dentry x).leaf
  name : ∀ x, (s'.dentry x).name = (s.dentry x).name

theorem SameLinks.of_dentry (hden : s'.dentry = s.dentry) (hmap : s'.dentryMap = s.dentryMap) :
    SameLinks s s' :=
  ⟨hmap, fun x => by rw [hden], fun x => by rw [hden], fun x => by rw [hden],
    fun x => by rw [hden]⟩

namespace SameLinks

theorem allocated_iff (h : SameLinks s s') : Allocated s' x ↔ Allocated s x := by
  rw [Allocated, Allocated, h.dentryMap]

theorem listed_iff (h : SameLinks s s') : Listed s' d x ↔ Listed s d x := by
  have hnext : nextOf s' = nextOf s := funext h.next
  rw [Listed, Listed, hnext, h.leaf]

theorem inTree_iff (h : SameLinks s s') : InTree s' x ↔ InTree s x := by
  constructor
  · intro hx
    induction hx with
    | top => exact .top
    | leaf _ hlisted ih => exact .leaf ih (h.listed_iff.mp hlisted)
  · intro hx
    induction hx with
    | top => exact .top
    | leaf _ hlisted ih => exact .leaf ih (h.listed_iff.mpr hlisted)

theorem hasName_iff (h : SameLinks s s') (htree : DirTree s) (hx : InTree s x) (hx0 : x ≠ 0) :
    HasName s' x w ↔ HasName s x w := by
  obtain ⟨w₀, hw₀, hname₀⟩ := htree.named x hx hx0
  have hname₀' := hname₀.congr hw₀ (h.name x)
  constructor
  · intro hw
    rwa [hw.unique hname₀']
  · intro hw
    rwa [hw.unique hname₀]

theorem namesTo (h : SameLinks s s') (htree : DirTree s) (hx : NamesTo s x ws) :
    NamesTo s' x ws := by
  induction hx with
  | top => exact .top
  | leaf hd hlisted hw ih =>
    refine ih.leaf (h.listed_iff.mpr hlisted) ?_
    exact (h.hasName_iff htree (.leaf hd.inTree hlisted)
      (htree.isLeaf hd.inTree hlisted).2.1).mpr hw

theorem dirTree (h : SameLinks s s') (htree : DirTree s) : DirTree s' where
  top := h.allocated_iff.mpr htree.top
  lists := fun d hd => by
    obtain ⟨l, hl⟩ := htree.lists d (h.inTree_iff.mp hd)
    have hnext : nextOf s' = nextOf s := funext h.next
    refine ⟨l, by rw [hnext, h.leaf]; exact hl.chain, hl.nodup, fun x hx => ?_⟩
    rw [IsLeaf, h.allocated_iff, h.root]
    exact hl.leaf x hx
  named := fun x hx hx0 => by
    have hx' := h.inTree_iff.mp hx
    obtain ⟨w, hlt, hw⟩ := htree.named x hx' hx0
    exact ⟨w, hlt, (h.hasName_iff htree hx' hx0).mpr hw⟩
  distinct := fun d x y w hd hx hy hwx hwy => by
    have hd' := h.inTree_iff.mp hd
    have hx' := h.listed_iff.mp hx
    have hy' := h.listed_iff.mp hy
    refine htree.distinct d x y w hd' hx' hy' ?_ ?_
    · exact (h.hasName_iff htree (.leaf hd' hx') (htree.isLeaf hd' hx').2.1).mp hwx
    · exact (h.hasName_iff htree (.leaf hd' hy') (htree.isLeaf hd' hy').2.1).mp hwy

end SameLinks

/-- A tree of `/` alone. -/
theorem dirTree_of_empty (h0 : Allocated s 0) (hleaf : (s.dentry 0).leaf = 0) : DirTree s := by
  have hnone : ∀ x, ¬ Listed s 0 x := by
    rintro x ⟨l, hchain, hx⟩
    rw [hleaf] at hchain
    rw [hchain.unique (show Chain 0 (nextOf s) 0 [] from rfl)] at hx
    exact absurd hx List.not_mem_nil
  have honly : ∀ x, InTree s x → x = 0 := by
    intro x hx
    induction hx with
    | top => rfl
    | leaf _ hlisted ih => exact absurd (ih ▸ hlisted) (hnone _)
  exact
    { top := h0
      lists := fun d hd => by
        rw [honly d hd]
        exact ⟨[], by rw [hleaf]; rfl, List.nodup_nil, fun x hx => absurd hx List.not_mem_nil⟩
      named := fun x hx hx0 => absurd (honly x hx) hx0
      distinct := fun d x y w hd hx => absurd (honly d hd ▸ hx) (hnone x) }

/-! ## A new leaf of the tree -/

namespace Hung

/-- The lists of the old directories. -/
theorem listOf_old (h : Hung s root name new s') (h0 : Allocated s 0) (hd : d ≠ new)
    (hl : ListOf s d l) : ListOf s' d (if d = root then new :: l else l) := by
  obtain ⟨i, named, hnew, -⟩ := h.atNew
  have hold : ∀ x ∈ l, x ≠ new := fun x hx => h.ne_new (hl.leaf x hx).1
  have hnext : ∀ x ∈ l, nextOf s' x = nextOf s x := fun x hx => (h.dentry_old (hold x hx)).2.1
  have hleaf : ∀ x ∈ l, IsLeaf s' d x := by
    intro x hx
    obtain ⟨hall, hx0, hroot⟩ := hl.leaf x hx
    exact ⟨h.allocated_iff.mpr (.inr hall), hx0, (h.dentry_old (hold x hx)).1.trans hroot⟩
  by_cases hdr : d = root
  · subst hdr
    have hne0 : new ≠ 0 := (h.ne_new h0).symm
    rw [if_pos rfl]
    refine ⟨?_, List.nodup_cons.mpr ⟨fun hin => hold new hin rfl, hl.nodup⟩, fun x hx => ?_⟩
    · rw [h.atRoot]
      refine hl.chain.cons hne0 ?_ hnext
      rw [nextOf, hnew]
    · rcases List.mem_cons.mp hx with rfl | hx
      · exact ⟨h.allocated_iff.mpr (.inl rfl), hne0, by rw [hnew]⟩
      · exact hleaf x hx
  · rw [if_neg hdr]
    refine ⟨?_, hl.nodup, hleaf⟩
    rw [h.other d hd hdr]
    exact hl.chain.congr hnext

/-- The new leaf is empty. -/
theorem listOf_new (h : Hung s root name new s') : ListOf s' new [] := by
  obtain ⟨i, named, hnew, -⟩ := h.atNew
  exact ⟨by rw [hnew]; rfl, List.nodup_nil, fun x hx => absurd hx List.not_mem_nil⟩

theorem listed_old_iff (h : Hung s root name new s') (htree : DirTree s) (hd : InTree s d) :
    Listed s' d x ↔ d = root ∧ x = new ∨ Listed s d x := by
  obtain ⟨l, hl⟩ := htree.lists d hd
  have hl' := h.listOf_old htree.top (h.ne_new (htree.allocated hd)) hl
  rw [hl'.listed_iff, hl.listed_iff]
  by_cases hdr : d = root
  · rw [if_pos hdr, List.mem_cons, and_iff_right hdr]
  · rw [if_neg hdr]
    exact ⟨.inr, fun h => h.resolve_left fun hc => hdr hc.1⟩

theorem inTree_iff (h : Hung s root name new s') (htree : DirTree s) (hroot : InTree s root) :
    InTree s' x ↔ x = new ∨ InTree s x := by
  constructor
  · intro hx
    induction hx with
    | top => exact .inr .top
    | @leaf d x _ hlisted ih =>
      rcases ih with rfl | hd
      · exact absurd (h.listOf_new.listed_iff.mp hlisted) List.not_mem_nil
      · rcases (h.listed_old_iff htree hd).mp hlisted with ⟨-, rfl⟩ | hold
        · exact .inl rfl
        · exact .inr (.leaf hd hold)
  · have hold : ∀ x, InTree s x → InTree s' x := by
      intro x hx
      induction hx with
      | top => exact .top
      | leaf hd hlisted ih => exact .leaf ih ((h.listed_old_iff htree hd).mpr (.inr hlisted))
    rintro (rfl | hx)
    · exact .leaf (hold root hroot) ((h.listed_old_iff htree hroot).mpr (.inl ⟨rfl, rfl⟩))
    · exact hold x hx

theorem hasName_inTree (h : Hung s root name new s') (htree : DirTree s) (hx : InTree s x)
    (hx0 : x ≠ 0) : HasName s' x w ↔ HasName s x w := by
  obtain ⟨w₀, hw₀, hname₀⟩ := htree.named x hx hx0
  obtain ⟨-, -, -, hname⟩ := h.dentry_old (h.ne_new (htree.allocated hx))
  have hname₀' := hname₀.congr hw₀ hname
  constructor
  · intro hw
    rwa [hw.unique hname₀']
  · intro hw
    rwa [hw.unique hname₀]

/-- Components lead where they led before. -/
theorem namesTo (h : Hung s root name new s') (htree : DirTree s) (hx : NamesTo s x ws) :
    NamesTo s' x ws := by
  induction hx with
  | top => exact .top
  | @leaf d x w ws hd hlisted hw ih =>
    refine ih.leaf ((h.listed_old_iff htree hd.inTree).mpr (.inr hlisted)) ?_
    exact (h.hasName_inTree htree (.leaf hd.inTree hlisted)
      (htree.isLeaf hd.inTree hlisted).2.1).mpr hw

theorem namesTo_new (h : Hung s root name new s') (htree : DirTree s) (hroot : NamesTo s root ws)
    (hw : strlen name < kfsMaxName) : NamesTo s' new (ws ++ [name.chars]) :=
  (h.namesTo htree hroot).leaf ((h.listed_old_iff htree hroot.inTree).mpr (.inl ⟨rfl, rfl⟩))
    (h.hasName_new hw)

theorem dirTree (h : Hung s root name new s') (htree : DirTree s) (hroot : InTree s root)
    (hw : strlen name < kfsMaxName) (hnone : ∀ x, Listed s root x → ¬ HasName s x name) :
    DirTree s' where
  top := h.allocated_iff.mpr (.inr htree.top)
  lists := fun d hd => by
    rcases (h.inTree_iff htree hroot).mp hd with rfl | hd
    · exact ⟨[], h.listOf_new⟩
    · obtain ⟨l, hl⟩ := htree.lists d hd
      exact ⟨_, h.listOf_old htree.top (h.ne_new (htree.allocated hd)) hl⟩
  named := fun x hx hx0 => by
    rcases (h.inTree_iff htree hroot).mp hx with rfl | hx
    · exact ⟨name, hw, h.hasName_new hw⟩
    · obtain ⟨w, hlt, hname⟩ := htree.named x hx hx0
      exact ⟨w, hlt, (h.hasName_inTree htree hx hx0).mpr hname⟩
  distinct := fun d x y w hd hx hy hwx hwy => by
    rcases (h.inTree_iff htree hroot).mp hd with rfl | hd
    · exact absurd (h.listOf_new.listed_iff.mp hx) List.not_mem_nil
    have hold : ∀ z, Listed s d z → (HasName s' z w ↔ HasName s z w) := fun z hz =>
      h.hasName_inTree htree (.leaf hd hz) (htree.isLeaf hd hz).2.1
    rcases (h.listed_old_iff htree hd).mp hx with ⟨rfl, rfl⟩ | hx <;>
      rcases (h.listed_old_iff htree hd).mp hy with ⟨hdr, rfl⟩ | hy
    · rfl
    · rw [hold y hy, hwx.unique (h.hasName_new hw)] at hwy
      exact absurd hwy (hnone y hy)
    · rw [hold x hx, hwy.unique (h.hasName_new hw)] at hwx
      exact absurd hwx (hnone x (hdr ▸ hx))
    · exact htree.distinct d x y w hd hx hy ((hold x hx).mp hwx) ((hold y hy).mp hwy)

end Hung

/-! ## A leaf that is removed -/

namespace Cut

variable {z : Nat}

theorem allocated_iff (h : Cut s z s') : Allocated s' x ↔ x ≠ z ∧ Allocated s x := by
  unfold Allocated
  rw [h.dentrySet, Bool.and_eq_true, Bool.not_eq_true', decide_eq_false_iff_not]
  exact ⟨fun ⟨hlt, hne, hset⟩ => ⟨hne, hlt, hset⟩, fun ⟨hne, hlt, hset⟩ => ⟨hlt, hne, hset⟩⟩

theorem listOf (h : Cut s z s') (hd : d ≠ z) (hl : ListOf s d l) :
    ListOf s' d (l.filter (· ≠ z)) := by
  refine ⟨h.lists d l hd hl, hl.nodup.filter _, fun x hx => ?_⟩
  obtain ⟨hx, hxz⟩ := List.mem_filter.mp hx
  have hxz' : x ≠ z := by simpa using hxz
  obtain ⟨hall, hx0, hroot⟩ := hl.leaf x hx
  exact ⟨h.allocated_iff.mpr ⟨hxz', hall⟩, hx0, (h.other x hxz').1.trans hroot⟩

theorem listed_iff (h : Cut s z s') (htree : DirTree s) (hd : InTree s d) (hdz : d ≠ z) :
    Listed s' d x ↔ Listed s d x ∧ x ≠ z := by
  obtain ⟨l, hl⟩ := htree.lists d hd
  rw [(h.listOf hdz hl).listed_iff, hl.listed_iff, List.mem_filter, decide_eq_true_eq]

theorem inTree (h : Cut s z s') (htree : DirTree s) (hz0 : z ≠ 0) (hx : InTree s' x) :
    InTree s x ∧ x ≠ z := by
  induction hx with
  | top => exact ⟨.top, hz0.symm⟩
  | leaf _ hlisted ih =>
    obtain ⟨hd, hdz⟩ := ih
    obtain ⟨hold, hxz⟩ := (h.listed_iff htree hd hdz).mp hlisted
    exact ⟨.leaf hd hold, hxz⟩

theorem dirTree (h : Cut s z s') (htree : DirTree s) (hz0 : z ≠ 0) : DirTree s' where
  top := h.allocated_iff.mpr ⟨hz0.symm, htree.top⟩
  lists := fun d hd => by
    obtain ⟨hd, hdz⟩ := h.inTree htree hz0 hd
    obtain ⟨l, hl⟩ := htree.lists d hd
    exact ⟨_, h.listOf hdz hl⟩
  named := fun x hx hx0 => by
    obtain ⟨hx, hxz⟩ := h.inTree htree hz0 hx
    obtain ⟨w, hlt, hw⟩ := htree.named x hx hx0
    exact ⟨w, hlt, hw.congr hlt (h.other x hxz).2.2⟩
  distinct := fun d x y w hd hx hy hwx hwy => by
    obtain ⟨hd, hdz⟩ := h.inTree htree hz0 hd
    obtain ⟨hx, hxz⟩ := (h.listed_iff htree hd hdz).mp hx
    obtain ⟨hy, hyz⟩ := (h.listed_iff htree hd hdz).mp hy
    have hname : ∀ v, Listed s d v → v ≠ z → HasName s' v w → HasName s v w := by
      intro v hv hvz hw
      obtain ⟨w₀, hw₀, hname₀⟩ := htree.named v (.leaf hd hv) (htree.isLeaf hd hv).2.1
      rwa [hw.unique (hname₀.congr hw₀ (h.other v hvz).2.2)]
    exact htree.distinct d x y w hd hx hy (hname x hx hxz hwx) (hname y hy hyz hwy)

end Cut

end

/-! ## The components of a path -/

/-- The components of a path; repeated slashes and those at the end make none. -/
def pathNames (path : CStr) : List (List (BitVec 8)) := tokens (· == slash) path.chars

/-- No component is longer than `max`. -/
def ShortNames (max : Nat) (path : CStr) : Prop := ∀ c ∈ pathNames path, c.length ≤ max

section
variable {path next : CStr} {max : Nat}

theorem drop_takeWhile (q : BitVec 8 → Bool) (l : List (BitVec 8)) :
    l.drop (l.takeWhile q).length = l.dropWhile q := by
  have h := List.takeWhile_append_dropWhile (p := q) (l := l)
  calc l.drop (l.takeWhile q).length
      = (l.takeWhile q ++ l.dropWhile q).drop (l.takeWhile q).length := by rw [h]
    _ = l.dropWhile q := List.drop_left

/-- What `kfs_getname` cuts off. -/
theorem kfsGetname_eq (next : CStr) (hne : next.chars ≠ []) : ∃ rest : CStr,
    kfsGetname next = some (nameOf next, rest) ∧
      rest.chars = ((next.chars.dropWhile (· ≠ slash)).drop 1).dropWhile (· = slash) := by
  refine ⟨_, if_neg hne, ?_⟩
  have hdrop : next.chars.drop (strlen (nameOf next) + 1)
      = (next.chars.dropWhile (· ≠ slash)).drop 1 := by
    rw [← List.drop_drop]
    exact congrArg (List.drop 1) (drop_takeWhile _ _)
  show next.chars.drop _ = _
  rw [← List.drop_drop, hdrop]
  exact drop_takeWhile _ _

theorem head_dropWhile_slash (l : List (BitVec 8)) : (l.dropWhile (· = slash)).getD 0 0 ≠ slash := by
  induction l with
  | nil => decide
  | cons c l ih =>
    by_cases hc : c = slash
    · rw [List.dropWhile_cons_of_pos (by simpa using hc)]
      exact ih
    · rw [List.dropWhile_cons_of_neg (by simpa using hc)]
      exact hc

theorem tokens_dropWhile_slash (l : List (BitVec 8)) :
    tokens (· == slash) (l.dropWhile (· = slash)) = tokens (· == slash) l := by
  induction l with
  | nil => rfl
  | cons c l ih =>
    by_cases hc : c = slash
    · rw [List.dropWhile_cons_of_pos (by simpa using hc), ih, tokens_cons_sep (by simpa using hc)]
    · rw [List.dropWhile_cons_of_neg (by simpa using hc)]

/-- The first name of an absolute path is empty. -/
theorem kfsGetname_absolute (habs : path.byte 0 = slash) : ∃ name rest,
    kfsGetname path = some (name, rest) ∧ rest.byte 0 ≠ slash ∧ pathNames rest = pathNames path := by
  obtain ⟨chars, hnz⟩ := path
  cases chars with
  | nil => exact absurd (show (0 : BitVec 8) = slash from habs) (by decide)
  | cons c tail =>
    obtain rfl : c = slash := habs
    obtain ⟨rest, hget, hrest⟩ := kfsGetname_eq ⟨slash :: tail, hnz⟩ (by simp)
    rw [List.dropWhile_cons_of_neg (by simp), List.drop_one, List.tail_cons] at hrest
    refine ⟨_, rest, hget, ?_, ?_⟩
    · rw [CStr.byte, hrest]
      exact head_dropWhile_slash tail
    · rw [pathNames, pathNames, hrest, tokens_dropWhile_slash, tokens_cons_sep (by simp)]

/-- The next one is the next component. -/
theorem kfsGetname_next (hne : next.chars ≠ []) (hslash : next.byte 0 ≠ slash) : ∃ name rest,
    kfsGetname next = some (name, rest) ∧ pathNames next = name.chars :: pathNames rest ∧
      rest.byte 0 ≠ slash ∧ strlen rest < strlen next ∧ slash ∉ name.chars := by
  obtain ⟨rest, hget, hrest⟩ := kfsGetname_eq next hne
  have hword : ∀ c ∈ (nameOf next).chars, (c == slash) = false := by
    intro c hc
    have := List.mem_takeWhile_imp hc
    simpa using this
  have hnameNe : (nameOf next).chars ≠ [] := by
    obtain ⟨chars, hnz⟩ := next
    cases chars with
    | nil => exact absurd rfl hne
    | cons c tail =>
      have hc : c ≠ slash := hslash
      show (c :: tail).takeWhile (· ≠ slash) ≠ []
      rw [List.takeWhile_cons_of_pos (by simpa using hc)]
      simp
  have hsplit : (nameOf next).chars ++ next.chars.dropWhile (· ≠ slash) = next.chars :=
    List.takeWhile_append_dropWhile
  have hlen : 0 < (nameOf next).chars.length := List.length_pos_iff.mpr hnameNe
  refine ⟨nameOf next, rest, hget, ?_, ?_, ?_, ?_⟩
  · have htokens : tokens (· == slash) next.chars = tokens (· == slash)
        ((nameOf next).chars ++ next.chars.dropWhile (· ≠ slash)) := by rw [hsplit]
    rw [pathNames, pathNames, hrest, tokens_dropWhile_slash, htokens]
    cases hrun : next.chars.dropWhile (· ≠ slash) with
    | nil => rw [List.append_nil, tokens_word hnameNe hword, List.drop_nil, tokens_nil]
    | cons c tail =>
      have hc : (c == slash) = true := by
        have hhead := List.head?_dropWhile_not (· ≠ slash) next.chars
        rw [hrun] at hhead
        simpa using hhead
      rw [tokens_word_sep hnameNe hword hc, List.drop_one, List.tail_cons]
  · rw [CStr.byte, hrest]
    exact head_dropWhile_slash _
  · have hle : rest.chars.length ≤ (next.chars.dropWhile (· ≠ slash)).length := by
      rw [hrest]
      refine ((List.dropWhile_sublist _).length_le).trans ?_
      rw [List.length_drop]
      omega
    have hsum := congrArg List.length hsplit
    rw [List.length_append] at hsum
    unfold strlen
    omega
  · intro hin
    exact absurd (hword slash hin) (by simp)

theorem kfsGetname_nil (h : next.chars = []) : kfsGetname next = none := if_pos h

end

/-! ## Open -/

/-- What the calls keep. -/
structure NameInv (s : Kfs) : Prop extends DirTree s where
  low : Low s.dentryMap kfsMaxDentry

/-- So many dentries are free. -/
def Enough (s : Kfs) (n : Nat) : Prop :=
  (bitsSet s.dentryMap.bmp kfsMaxDentry).card + n ≤ kfsMaxDentry

/-- No dentry has changed but new ones and the first leaf of `d`. -/
structure OnlyNew (s : Kfs) (d : Nat) (s' : Kfs) : Prop where
  kept : ∀ x, Allocated s x → Allocated s' x
  other : ∀ x, Allocated s x ∨ ¬ Allocated s' x → x ≠ d → s'.dentry x = s.dentry x
  dir : s'.dentry d = { s.dentry d with leaf := (s'.dentry d).leaf }

/-- Nothing is allocated, and the dentries are the same. -/
structure SameAlloc (s s' : Kfs) : Prop where
  dentry : s'.dentry = s.dentry
  dentryMap : s'.dentryMap = s.dentryMap
  inodeMap : s'.inodeMap = s.inodeMap
  fmapMap : s'.fmapMap = s.fmapMap
  pageMap : s'.pageMap = s.pageMap

/-- What an open of a name that exists keeps besides. -/
structure Reopened (s s' : Kfs) : Prop extends SameAlloc s s' where
  count : ∀ j, (s'.inode j).count = (s.inode j).count

section
variable {s s' : Kfs} {d x root r : Nat} {name next path : CStr} {ws : List (List (BitVec 8))}

theorem SameLinks.nameInv (h : SameLinks s s') (hinv : NameInv s) : NameInv s' where
  toDirTree := h.dirTree hinv.toDirTree
  low := by
    rw [h.dentryMap]
    exact hinv.low

theorem sameAlloc_setDir (s : Kfs) (root : Nat) : SameAlloc s (setDir s root) :=
  ⟨rfl, rfl, rfl, rfl, rfl⟩

theorem SameAlloc.trans {s₁ s₂ s₃ : Kfs} (h : SameAlloc s₁ s₂) (h' : SameAlloc s₂ s₃) :
    SameAlloc s₁ s₃ where
  dentry := h'.dentry.trans h.dentry
  dentryMap := h'.dentryMap.trans h.dentryMap
  inodeMap := h'.inodeMap.trans h.inodeMap
  fmapMap := h'.fmapMap.trans h.fmapMap
  pageMap := h'.pageMap.trans h.pageMap

theorem SameAlloc.links (h : SameAlloc s s') : SameLinks s s' := .of_dentry h.dentry h.dentryMap

theorem Reopened.refl (s : Kfs) : Reopened s s := ⟨⟨rfl, rfl, rfl, rfl, rfl⟩, fun _ => rfl⟩

theorem Reopened.trans {s₁ s₂ s₃ : Kfs} (h : Reopened s₁ s₂) (h' : Reopened s₂ s₃) :
    Reopened s₁ s₃ where
  toSameAlloc := h.toSameAlloc.trans h'.toSameAlloc
  count := fun j => (h'.count j).trans (h.count j)

theorem reopened_setDir (s : Kfs) (root : Nat) : Reopened s (setDir s root) where
  toSameAlloc := sameAlloc_setDir s root
  count := fun _ => Kfs.setInode_field KfsInode.count fun _ => rfl

/-- `kfs_openat` in a directory: the leaf of this name, a new one, or the dentry of `/` when
none is free. -/
theorem NameInv.openat_cases (h : NameInv s) (hroot : InTree s root)
    (hw : strlen name < kfsMaxName) :
    (∃ x, kfsOpenat s root name = some (x, setDir s root) ∧ Listed s root x ∧ HasName s x name) ∨
    (∀ x, Listed s root x → ¬ HasName s x name) ∧
      ∃ leaf s', kfsOpenat s root name = some (leaf, s') ∧
        (Hung (setDir s root) root name leaf s' ∨
          (∀ d, d < kfsMaxDentry → s.dentryMap.bmp.isSet d = true) ∧ leaf = 0 ∧
            (s'.dentry 0).leaf = 0 ∧
            s'.dentryMap = { s.dentryMap with cur := kfsMaxDentry }) := by
  rcases h.find hroot name with ⟨x, hfind, hlisted, hx⟩ | ⟨hfind, hnone⟩
  · refine .inl ⟨x, ?_, hlisted, hx⟩
    rw [kfsOpenat, hfind]
    rfl
  · refine .inr ⟨hnone, ?_⟩
    have hopen : kfsOpenat s root name = some (kfsCreate (setDir s root) root name) := by
      rw [kfsOpenat, hfind]
      rfl
    by_cases hroom : ∃ d, d < kfsMaxDentry ∧ s.dentryMap.bmp.isSet d = false
    · obtain ⟨new, -, s', hcreate, hhung, -⟩ := kfsCreate_hung (s := setDir s root) h.low h.top.2
        hroom (h.allocated hroot) hw
      exact ⟨new, s', hopen.trans (congrArg some hcreate), .inl hhung⟩
    · have hfull : ∀ d, d < kfsMaxDentry → s.dentryMap.bmp.isSet d = true := by
        intro d hd
        by_contra hclear
        exact hroom ⟨d, hd, Bool.eq_false_of_not_eq_true hclear⟩
      obtain ⟨h0, hleaf, hmap⟩ := kfsCreate_noDentry (s := setDir s root) h.low hfull root name
      exact ⟨_, _, hopen, .inr ⟨hfull, h0, hleaf, hmap⟩⟩

theorem NameInv.ofHung {new : Nat} (h : NameInv s) (hroot : InTree s root)
    (hw : strlen name < kfsMaxName) (hnone : ∀ x, Listed s root x → ¬ HasName s x name)
    (hhung : Hung (setDir s root) root name new s') : NameInv s' ∧ InTree s' new := by
  have hlinks := (sameAlloc_setDir s root).links
  have htree := hlinks.dirTree h.toDirTree
  have hroot' := hlinks.inTree_iff.mpr hroot
  refine ⟨⟨hhung.dirTree htree hroot' hw fun x hx hname => ?_, hhung.lowDentry⟩,
    (hhung.inTree_iff htree hroot').mpr (.inl rfl)⟩
  have hx' := hlinks.listed_iff.mp hx
  refine hnone x hx' ((hlinks.hasName_iff h.toDirTree (.leaf hroot hx') ?_).mp hname)
  exact (h.isLeaf hroot hx').2.1

theorem NameInv.openat (h : NameInv s) (hroot : InTree s root) (hw : strlen name < kfsMaxName) :
    ∃ leaf s', kfsOpenat s root name = some (leaf, s') ∧ NameInv s' ∧ InTree s' leaf := by
  have hlinks := (sameAlloc_setDir s root).links
  rcases h.openat_cases hroot hw with ⟨x, heq, hlisted, -⟩ |
    ⟨hnone, leaf, s', heq, hhung | ⟨hfull, rfl, hleaf, hmap⟩⟩
  · exact ⟨x, _, heq, hlinks.nameInv h, hlinks.inTree_iff.mpr (.leaf hroot hlisted)⟩
  · obtain ⟨hinv, hin⟩ := h.ofHung hroot hw hnone hhung
    exact ⟨leaf, s', heq, hinv, hin⟩
  · have hset : ∀ k, s'.dentryMap.bmp.isSet k = s.dentryMap.bmp.isSet k := fun k => by rw [hmap]
    refine ⟨0, s', heq, ⟨dirTree_of_empty ⟨h.top.1, (hset 0).trans h.top.2⟩ hleaf, ?_⟩, .top⟩
    refine ⟨by rw [hmap], fun k hk => ?_⟩
    rw [hmap] at hk
    rw [hset]
    exact hfull k hk

/-- A turn of the loop of `kfs_open`. -/
theorem kfsOpenLoop_next {fuel : Nat} {rest : CStr} (hget : kfsGetname next = some (name, rest))
    (hlen : strlen name ≤ kfsMaxComponent) :
    kfsOpenLoop (fuel + 1) next d s =
      (kfsOpenat s d name).bind fun r => kfsOpenLoop fuel rest r.1 r.2 := by
  rw [kfsOpenLoop]
  simp only [hget]
  rw [if_pos hlen]
  rfl

/-- The next component of a path of short names. -/
theorem kfsGetname_short (hshort : ShortNames 27 next) (hne : next.chars ≠ [])
    (hslash : next.byte 0 ≠ slash) : ∃ name rest, kfsGetname next = some (name, rest) ∧
      pathNames next = name.chars :: pathNames rest ∧ strlen name < kfsMaxName ∧
      strlen name ≤ kfsMaxComponent ∧ ShortNames 27 rest ∧ rest.byte 0 ≠ slash ∧
      strlen rest < strlen next ∧ slash ∉ name.chars := by
  obtain ⟨name, rest, hget, hnames, hslash', hlt, hnone⟩ := kfsGetname_next hne hslash
  rw [ShortNames, hnames] at hshort
  have hlen : strlen name ≤ 27 := hshort name.chars List.mem_cons_self
  have hmax : kfsMaxName = 28 := rfl
  have hbuf : kfsMaxComponent = 31 := rfl
  exact ⟨name, rest, hget, hnames, by omega, by omega,
    fun c hc => hshort c (List.mem_cons_of_mem _ hc), hslash', hlt, hnone⟩

/-- `kfs_open` below a dentry. -/
theorem NameInv.openLoop (fuel : Nat) (h : NameInv s) (hd : InTree s d)
    (hshort : ShortNames 27 next) (hslash : next.byte 0 ≠ slash) :
    ∃ r s', kfsOpenLoop fuel next d s = some (r, s') ∧ NameInv s' ∧ InTree s' r := by
  induction fuel generalizing s d next with
  | zero => exact ⟨d, s, rfl, h, hd⟩
  | succ fuel ih =>
    by_cases hnil : next.chars = []
    · rw [kfsOpenLoop, kfsGetname_nil hnil]
      exact ⟨d, s, rfl, h, hd⟩
    · obtain ⟨name, rest, hget, -, hw, hlen, hshort', hslash', -⟩ := kfsGetname_short hshort hnil hslash
      obtain ⟨leaf, s₁, hopen, hinv₁, hleaf⟩ := h.openat hd hw
      rw [kfsOpenLoop_next hget hlen, hopen, Option.bind_some]
      exact ih hinv₁ hleaf hshort' hslash'

/-- Components that lead to a dentry: the loop finds it. -/
theorem NameInv.openLoop_found {e : Nat} (fuel : Nat) (h : NameInv s) (hd : NamesTo s d ws)
    (hshort : ShortNames 27 next) (hslash : next.byte 0 ≠ slash) (hfuel : strlen next ≤ fuel)
    (he : NamesTo s e (ws ++ pathNames next)) :
    ∃ s', kfsOpenLoop fuel next d s = some (e, s') ∧ Reopened s s' := by
  have hstop : next.chars = [] → d = e := by
    intro hnil
    rw [pathNames, hnil, tokens_nil, List.append_nil] at he
    exact h.dentry_unique hd he
  induction fuel generalizing s d next ws with
  | zero =>
    obtain rfl := hstop (List.length_eq_zero_iff.mp (Nat.le_zero.mp hfuel))
    exact ⟨s, rfl, .refl s⟩
  | succ fuel ih =>
    by_cases hnil : next.chars = []
    · obtain rfl := hstop hnil
      rw [kfsOpenLoop, kfsGetname_nil hnil]
      exact ⟨s, rfl, .refl s⟩
    · obtain ⟨name, rest, hget, hnames, hw, hlen, hshort', hslash', hlt, -⟩ := kfsGetname_short hshort hnil hslash
      rw [hnames, ← List.singleton_append, ← List.append_assoc] at he
      obtain ⟨x, hx⟩ := he.first _ _ rfl
      obtain ⟨hlisted, hname⟩ := h.last hd hx
      rw [kfsOpenLoop_next hget hlen]
      rcases h.openat_cases hd.inTree hw with ⟨y, hopen, hlisted', hname'⟩ | ⟨hnone, -⟩
      · obtain rfl := h.distinct d x y name hd.inTree hlisted hlisted' hname hname'
        have hsame := sameAlloc_setDir s d
        have hto : ∀ z us, NamesTo s z us → NamesTo (setDir s d) z us := fun z us hz =>
          hsame.links.namesTo h.toDirTree hz
        have hinv := hsame.links.nameInv h
        rw [hopen, Option.bind_some]
        obtain ⟨s', hloop, hsame'⟩ := ih hinv (hto x _ hx) hshort' hslash' (by omega) (hto e _ he)
          fun hnil' => by
            rw [pathNames, hnil', tokens_nil, List.append_nil] at he
            exact h.dentry_unique hx he
        exact ⟨s', hloop, (reopened_setDir s d).trans hsame'⟩
      · exact absurd hname (hnone x hlisted)

/-- What `kfs_open` of a path with enough dentries free leaves behind; `top` is the
directory of the first new name. -/
structure Grown (s : Kfs) (top : Nat) (s' : Kfs) : Prop where
  inv : NameInv s'
  names : ∀ x us, NamesTo s x us → NamesTo s' x us
  used : Allocated s top
  only : OnlyNew s top s'

theorem Grown.refl (h : NameInv s) (hd : Allocated s d) : Grown s d s :=
  ⟨h, fun _ _ hx => hx, hd, fun _ hx => hx, fun _ _ _ => rfl, rfl⟩

/-- A found name before it changes nothing. -/
theorem SameAlloc.grown {s₁ : Kfs} {top : Nat} (h : SameAlloc s s₁) (hinv : NameInv s)
    (hg : Grown s₁ top s') : Grown s top s' := by
  have hall : ∀ x, Allocated s₁ x ↔ Allocated s x := fun x => h.links.allocated_iff
  refine ⟨hg.inv, fun x us hx => hg.names x us (h.links.namesTo hinv.toDirTree hx),
    (hall top).mp hg.used, fun x hx => hg.only.kept x ((hall x).mpr hx), fun x hx hne => ?_, ?_⟩
  · rw [← hall x] at hx
    rw [hg.only.other x hx hne, h.dentry]
  · rw [hg.only.dir, h.dentry]

theorem Grown.congr {s₁ : Kfs} {top : Nat} (hg : Grown s top s₁) (h : SameAlloc s₁ s') :
    Grown s top s' := by
  have hall : ∀ x, Allocated s' x ↔ Allocated s₁ x := fun x => h.links.allocated_iff
  refine ⟨h.links.nameInv hg.inv, fun x us hx => h.links.namesTo hg.inv.toDirTree (hg.names x us hx),
    hg.used, fun x hx => (hall x).mpr (hg.only.kept x hx), fun x hx hne => ?_, ?_⟩
  · rw [hall x] at hx
    rw [h.dentry, hg.only.other x hx hne]
  · rw [h.dentry]
    exact hg.only.dir

/-- A new leaf of `d`, and then what is made below it. -/
theorem NameInv.grown {new : Nat} {s₁ : Kfs} (h : NameInv s) (hd : InTree s d)
    (hhung : Hung (setDir s d) d name new s₁) (hg : Grown s₁ new s') : Grown s d s' := by
  have hlinks := (sameAlloc_setDir s d).links
  have hall : ∀ x, Allocated s x → Allocated s₁ x := fun x hx => hhung.allocated_iff.mpr (.inr hx)
  have hne : ∀ x, Allocated s x → x ≠ new := fun x hx => hhung.ne_new hx
  have hd' := h.allocated hd
  refine ⟨hg.inv, fun x us hx => ?_, hd', fun x hx => hg.only.kept x (hall x hx),
    fun x hx hxd => ?_, ?_⟩
  · exact hg.names x us (hhung.namesTo (hlinks.dirTree h.toDirTree) (hlinks.namesTo h.toDirTree hx))
  · have hxnew : x ≠ new := by
      rcases hx with hx | hx
      · exact hne x hx
      · rintro rfl
        exact hx (hg.only.kept x (hhung.allocated_iff.mpr (.inl rfl)))
    rw [hg.only.other x (hx.imp (hall x) id) hxnew, hhung.other x hxnew hxd]
    rfl
  · rw [hg.only.other d (.inl (hall d hd')) (hne d hd'), hhung.atRoot]
    rfl

/-- With a free dentry for each component, `kfs_open` makes the names that are missing. -/
theorem NameInv.openLoop_room (fuel : Nat) (h : NameInv s) (hd : NamesTo s d ws)
    (hshort : ShortNames 27 next) (hslash : next.byte 0 ≠ slash) (hfuel : strlen next ≤ fuel)
    (hroom : Enough s (pathNames next).length) :
    ∃ r s' top, kfsOpenLoop fuel next d s = some (r, s') ∧ Grown s top s' ∧
      NamesTo s' r (ws ++ pathNames next) ∧ ((∀ x, ¬ Listed s d x) → top = d) := by
  have hstop : next.chars = [] → NamesTo s d (ws ++ pathNames next) := by
    intro hnil
    rw [pathNames, hnil, tokens_nil, List.append_nil]
    exact hd
  induction fuel generalizing s d next ws with
  | zero =>
    have hnil := List.length_eq_zero_iff.mp (Nat.le_zero.mp hfuel)
    exact ⟨d, s, d, rfl, .refl h (h.allocated hd.inTree), hstop hnil, fun _ => rfl⟩
  | succ fuel ih =>
    by_cases hnil : next.chars = []
    · rw [kfsOpenLoop, kfsGetname_nil hnil]
      exact ⟨d, s, d, rfl, .refl h (h.allocated hd.inTree), hstop hnil, fun _ => rfl⟩
    · obtain ⟨name, rest, hget, hnames, hw, hlen, hshort', hslash', hlt, -⟩ :=
        kfsGetname_short hshort hnil hslash
      have hsame := sameAlloc_setDir s d
      have htree := hsame.links.dirTree h.toDirTree
      have hdir := hsame.links.namesTo h.toDirTree hd
      rw [hnames] at hroom
      rw [hnames, ← List.singleton_append, ← List.append_assoc, kfsOpenLoop_next hget hlen]
      have hend : ∀ s₁ x, NamesTo s₁ x (ws ++ [name.chars]) → rest.chars = [] →
          NamesTo s₁ x (ws ++ [name.chars] ++ pathNames rest) := by
        intro s₁ x hx hnil'
        rw [pathNames, hnil', tokens_nil, List.append_nil]
        exact hx
      rcases h.openat_cases hd.inTree hw with ⟨x, hopen, hlisted, hname⟩ |
        ⟨hnone, leaf, s₁, hopen, hhung | ⟨hfull, -⟩⟩
      · have hx : NamesTo (setDir s d) x (ws ++ [name.chars]) :=
          hsame.links.namesTo h.toDirTree (hd.leaf hlisted hname)
        have hroom' : Enough (setDir s d) (pathNames rest).length := by
          have hcard : (setDir s d).dentryMap = s.dentryMap := rfl
          unfold Enough at hroom ⊢
          rw [List.length_cons] at hroom
          rw [hcard]
          omega
        obtain ⟨r, s', top, hloop, hg, hr, -⟩ := ih (hsame.links.nameInv h) hx hshort' hslash'
          (by omega) hroom' (hend _ x hx)
        rw [hopen, Option.bind_some]
        exact ⟨r, s', top, hloop, hsame.grown h hg, hr, fun hempty => absurd hlisted (hempty x)⟩
      · obtain ⟨hinv₁, -⟩ := h.ofHung hd.inTree hw hnone hhung
        have hx := hhung.namesTo_new htree hdir hw
        have hroom' : Enough s₁ (pathNames rest).length := by
          unfold Enough at hroom ⊢
          rw [card_bitsSet_set hhung.new_lt hhung.new_free hhung.dentrySet]
          have hcard : (setDir s d).dentryMap = s.dentryMap := rfl
          rw [List.length_cons] at hroom
          rw [hcard]
          omega
        obtain ⟨r, s', top, hloop, hg, hr, htop⟩ := ih hinv₁ hx hshort' hslash' (by omega) hroom'
          (hend _ leaf hx)
        have hempty : ∀ y, ¬ Listed s₁ leaf y := fun y hy =>
          List.not_mem_nil (hhung.listOf_new.listed_iff.mp hy)
        obtain rfl := htop hempty
        rw [hopen, Option.bind_some]
        exact ⟨r, s', d, hloop, h.grown hd.inTree hhung hg, hr, fun _ => rfl⟩
      · unfold Enough at hroom
        rw [List.length_cons] at hroom
        obtain ⟨k, hk, hclear⟩ := exists_clear (b := s.dentryMap.bmp) (n := kfsMaxDentry) (by omega)
        rw [hfull k hk] at hclear
        exact absurd hclear (by decide)

theorem kfsOpen_relative (h : path.byte 0 ≠ slash) : kfsOpen s path = some (none, s) := if_pos h

/-- `kfs_open` of an absolute path begins below `/`. -/
theorem kfsOpen_absolute (habs : path.byte 0 = slash) : ∃ next : CStr,
    next.byte 0 ≠ slash ∧ pathNames next = pathNames path ∧
    ∀ s, kfsOpen s path = (kfsOpenLoop (strlen next) next 0 s).map fun r =>
      (some r.1, { r.2 with offset := Function.update r.2.offset (r.2.dentry r.1).inode 0 }) := by
  obtain ⟨name, next, hget, hslash, hnames⟩ := kfsGetname_absolute habs
  refine ⟨next, hslash, hnames, fun s => ?_⟩
  rw [kfsOpen, if_neg (not_not.mpr habs), hget]
  simp only
  cases kfsOpenLoop (strlen next) next 0 s <;> rfl

theorem sameAlloc_setOffset (s : Kfs) (i : Nat) :
    SameAlloc s { s with offset := Function.update s.offset i 0 } := ⟨rfl, rfl, rfl, rfl, rfl⟩

theorem NameInv.open_ (h : NameInv s) (hshort : ShortNames 27 path) :
    ∃ r s', kfsOpen s path = some (r, s') ∧ NameInv s' ∧ ∀ d, r = some d → InTree s' d := by
  by_cases habs : path.byte 0 = slash
  · obtain ⟨next, hslash, hnames, hopen⟩ := kfsOpen_absolute habs
    obtain ⟨r, s₁, hloop, hinv, hr⟩ := h.openLoop (strlen next) .top
      (by rwa [ShortNames, hnames]) hslash
    have hlinks := (sameAlloc_setOffset s₁ (s₁.dentry r).inode).links
    refine ⟨some r, _, by rw [hopen, hloop]; rfl, hlinks.nameInv hinv, fun d hd => ?_⟩
    rw [← Option.some.inj hd]
    exact hlinks.inTree_iff.mpr hr
  · exact ⟨none, s, kfsOpen_relative habs, h, fun d hd => absurd hd (by simp)⟩

/-- There is a dentry for each component of the path, or there are as many free. -/
def Openable (s : Kfs) (path : CStr) : Prop :=
  (∃ x, NamesTo s x (pathNames path)) ∨ Enough s (pathNames path).length

/-- `kfs_open` of a name that exists. -/
theorem NameInv.open_found {e : Nat} (h : NameInv s) (habs : path.byte 0 = slash)
    (hshort : ShortNames 27 path) (he : NamesTo s e (pathNames path)) :
    ∃ s', kfsOpen s path = some (some e, s') ∧ Reopened s s' := by
  obtain ⟨next, hslash, hnames, hopen⟩ := kfsOpen_absolute habs
  rw [ShortNames, ← hnames] at hshort
  rw [← hnames] at he
  obtain ⟨s₁, hloop, hsame⟩ := h.openLoop_found (strlen next) .top hshort hslash (Nat.le_refl _) he
  exact ⟨_, by rw [hopen, hloop]; rfl, hsame.trans ⟨sameAlloc_setOffset s₁ _, fun _ => rfl⟩⟩

/-- `kfs_open` of an absolute path that can be opened. -/
theorem NameInv.open_names (h : NameInv s) (habs : path.byte 0 = slash)
    (hshort : ShortNames 27 path) (hroom : Openable s path) :
    ∃ r s' top, kfsOpen s path = some (some r, s') ∧ Grown s top s' ∧
      NamesTo s' r (pathNames path) := by
  rcases hroom with ⟨e, he⟩ | hroom
  · obtain ⟨s', hopen, hsame⟩ := h.open_found habs hshort he
    have hinv := hsame.links.nameInv h
    exact ⟨e, s', 0, hopen, hsame.toSameAlloc.grown h (.refl hinv hinv.top),
      hsame.links.namesTo h.toDirTree he⟩
  · obtain ⟨next, hslash, hnames, hopen⟩ := kfsOpen_absolute habs
    rw [ShortNames, ← hnames] at hshort
    rw [← hnames] at hroom
    obtain ⟨r, s₁, top, hloop, hg, hr, -⟩ :=
      h.openLoop_room (strlen next) .top hshort hslash (Nat.le_refl _) hroom
    have hsame := sameAlloc_setOffset s₁ (s₁.dentry r).inode
    rw [List.nil_append, hnames] at hr
    exact ⟨r, _, top, by rw [hopen, hloop]; rfl, hg.congr hsame,
      hsame.links.namesTo hg.inv.toDirTree hr⟩

end

/-! ## The other calls -/

section
variable {s s' : Kfs} {c : KfsOp} {path : CStr} {d : Nat}

/-- The dentries and their bitmap are the same. -/
def SameDentries (s s' : Kfs) : Prop := s'.dentry = s.dentry ∧ s'.dentryMap = s.dentryMap

theorem SameDentries.refl (s : Kfs) : SameDentries s s := ⟨rfl, rfl⟩

theorem SameDentries.trans {s₁ : Kfs} (h : SameDentries s s₁) (h' : SameDentries s₁ s') :
    SameDentries s s' := ⟨h'.1.trans h.1, h'.2.trans h.2⟩

theorem SameDentries.links (h : SameDentries s s') : SameLinks s s' := .of_dentry h.1 h.2

/-- The pages and the maps of a file are freed. -/
theorem kfsUnlinkPages_dentries (inode size fmap1 n p fmap2 freemap : Nat) (s : Kfs) :
    SameDentries s (kfsUnlinkPages inode size fmap1 n p fmap2 freemap s) := by
  induction n generalizing p fmap2 freemap s with
  | zero => exact .refl s
  | succ n ih =>
    have hfree : ∀ (c : Prop) [Decidable c] (s₁ : Kfs) (fmap : Nat), SameDentries s s₁ →
        SameDentries s (if c then kfsFreeFmap s₁ fmap else s₁) := by
      intro c _ s₁ fmap h₁
      split
      · exact h₁.trans ⟨rfl, rfl⟩
      · exact h₁
    have hpage : ∀ page, SameDentries s (kfsFreePage s page) := fun _ => ⟨rfl, rfl⟩
    rw [kfsUnlinkPages]
    exact (hfree _ _ _ (hfree _ _ _ (hpage _))).trans (ih _ _ _ _)

theorem kfsNewFmap_dentries {rest : Nat → Kfs → Option PagePtr × Kfs}
    (hrest : ∀ fmap s₁, SameDentries s s₁ → SameDentries s (rest fmap s₁).2) :
    SameDentries s (kfsNewFmap s rest).2 := by
  show SameDentries s (if (kfsAllocFmap s).1 = 0 then (none, (kfsAllocFmap s).2)
    else rest (kfsAllocFmap s).1 (kfsAllocFmap s).2).2
  split
  · exact ⟨rfl, rfl⟩
  · exact hrest _ _ ⟨rfl, rfl⟩

theorem store_dentries (s : Kfs) (ptr : PagePtr) (v : Nat) : SameDentries s (s.store ptr v) := by
  cases ptr <;> exact ⟨rfl, rfl⟩

theorem kfsPpage2_dentries (s : Kfs) (inode n : Nat) :
    SameDentries s (kfsPpage2 s inode n).2 := by
  rw [kfsPpage2]
  simp only
  split
  · exact kfsNewFmap_dentries fun fmap s₁ h => h.trans (store_dentries s₁ _ _)
  · exact .refl s

theorem kfsPpage1_dentries (s : Kfs) (inode n old : Nat) :
    SameDentries s (kfsPpage1 s inode n old).2 := by
  rw [kfsPpage1]
  split
  · exact .refl s
  · split
    · refine kfsNewFmap_dentries fun fmap s₁ h => ?_
      exact (h.trans (store_dentries s₁ _ _)).trans (kfsPpage2_dentries _ inode n)
    · exact kfsPpage2_dentries s inode n

/-- `kfs_write` changes no dentry. -/
theorem kfsWrite_dentries (s : Kfs) (d k : Nat) (buf : KfsBuf) :
    SameDentries s (kfsWrite s d k buf).2 := by
  have hpage : SameDentries s (kfsPpage s (s.dentry d).inode (u16 k)).2 := by
    rw [kfsPpage]
    split
    · exact .refl s
    · split
      · refine kfsNewFmap_dentries fun fmap s₁ h => ?_
        have hset : SameDentries s₁
            (s₁.setInode (s.dentry d).inode fun e => { e with fmap := u16 fmap }) := ⟨rfl, rfl⟩
        exact (h.trans hset).trans (kfsPpage1_dentries _ _ _ _)
      · exact kfsPpage1_dentries s _ _ _
  rw [kfsWrite]
  generalize kfsPpage s (s.dentry d).inode (u16 k) = r at hpage
  obtain ⟨ptr, s₁⟩ := r
  cases ptr with
  | none => exact hpage
  | some ptr =>
    have hnames := (kfsWriteAt_names 0 s₁ ptr buf).1
    exact hpage.trans ⟨hnames.dentry, hnames.dentryMap⟩

/-- `kfs_link`: the inodes of two dentries change. -/
theorem NameInv.link {src dst : CStr} {r : Nat × Kfs} (h : NameInv s) (hsrc : ShortNames 27 src)
    (hdst : ShortNames 27 dst) (hlink : kfsLink s src dst = some r) : NameInv r.2 := by
  obtain ⟨d₁, s₁, hopen₁, hinv₁, -⟩ := h.open_ hsrc
  obtain ⟨d₂, s₂, hopen₂, hinv₂, -⟩ := hinv₁.open_ hdst
  simp only [kfsLink, hopen₁, hopen₂, Option.bind_eq_bind, Option.bind_some] at hlink
  obtain ⟨x, -, hlink⟩ := Option.bind_eq_some_iff.mp hlink
  obtain ⟨y, -, hlink⟩ := Option.bind_eq_some_iff.mp hlink
  let s₃ := s₂.setDentry y fun e => { e with inode := (s₂.dentry x).inode }
  have hlinks : SameLinks s₂ s₃ :=
    { dentryMap := rfl
      root := fun _ => Kfs.setDentry_field KfsDentry.root fun _ => rfl
      next := fun _ => Kfs.setDentry_field KfsDentry.next fun _ => rfl
      leaf := fun _ => Kfs.setDentry_field KfsDentry.leaf fun _ => rfl
      name := fun _ => Kfs.setDentry_field KfsDentry.name fun _ => rfl }
  have hsame : SameDentries s₃ r.2 := by
    rw [← Option.some.inj hlink]
    exact ⟨rfl, rfl⟩
  exact hsame.links.nameInv (hlinks.nameInv hinv₂)

/-- `kfs_unlink` of a name below `/` that can be opened. -/
theorem NameInv.unlink (h : NameInv s) (hshort : ShortNames 27 path) (hne : pathNames path ≠ [])
    (hroom : Openable s path) (hunlink : kfsUnlink s path = some s') : NameInv s' := by
  by_cases habs : path.byte 0 = slash
  · obtain ⟨r, s₁, top, hopen, hg, hr⟩ := h.open_names habs hshort hroom
    have hinv := hg.inv
    have hr0 : r ≠ 0 := by
      rintro rfl
      exact hne (hinv.names_unique hr .top)
    obtain ⟨hroot, hlisted⟩ := hinv.listed_root hr.inTree hr0
    obtain ⟨l, hl⟩ := hinv.lists _ hroot
    obtain ⟨s₂, hfree, hcut⟩ := kfsFreeDentry_cut hinv.low hl (hl.listed_iff.mp hlisted)
    have hinv₂ : NameInv s₂ := ⟨hcut.dirTree hinv.toDirTree hr0, hcut.lowDentry⟩
    rw [kfsUnlink, hopen] at hunlink
    simp only [Option.bind_eq_bind, Option.bind_some, hfree] at hunlink
    have hsame : SameDentries s₂ s' := by
      split at hunlink
      · rw [← Option.some.inj hunlink]
        have hinode : SameDentries s₂ (s₂.setInode (s₁.dentry r).inode fun e =>
            { e with count := e.count - 1 }) := ⟨rfl, rfl⟩
        exact (hinode.trans (kfsUnlinkPages_dentries _ _ _ _ _ _ _ _)).trans ⟨rfl, rfl⟩
      · rw [← Option.some.inj hunlink]
        exact ⟨rfl, rfl⟩
    exact hsame.links.nameInv hinv₂
  · rw [kfsUnlink, kfsOpen_relative habs] at hunlink
    exact absurd hunlink (by simp)

end

/-! ## Runs -/

/-- The names that a call makes have at most 27 characters; `kfs_openat` is below a dentry of
the tree, and `kfs_unlink` of a name below `/` that can be opened. -/
def NameStepOk (s : Kfs) : KfsOp → Prop
  | .open_ path => ShortNames 27 path
  | .openat root name => InTree s root ∧ strlen name < kfsMaxName
  | .link src dst => ShortNames 27 src ∧ ShortNames 27 dst
  | .unlink path => ShortNames 27 path ∧ pathNames path ≠ [] ∧ Openable s path
  | _ => True

/-- The tables after a run of such calls. -/
inductive NameRun : Kfs → Prop where
  | start : NameRun kfsStart
  | call {s s' : Kfs} {c : KfsOp} : NameRun s → NameStepOk s c → kfsOp s c = some s' → NameRun s'

/-- The dentry that `kfs_open` gives for an absolute path, with components of at most `max`
characters, is found again with nothing allocated; it is that of the paths with the same
components; and no dentry changes but new ones, and the first leaf of one directory. -/
def NamesOk (max : Nat) (s : Kfs) : Prop :=
  ∀ p : CStr, p.byte 0 = slash → ShortNames max p → Openable s p →
    ∃ d s₁, kfsOpen s p = some (some d, s₁) ∧
      (∃ s₂, kfsOpen s₁ p = some (some d, s₂) ∧ SameAlloc s₁ s₂) ∧
      (∃ top, Allocated s top ∧ OnlyNew s top s₁) ∧
      ∀ q : CStr, q.byte 0 = slash → ShortNames max q → Openable s₁ q →
        ∃ e s₂, kfsOpen s₁ q = some (some e, s₂) ∧ (d = e ↔ pathNames p = pathNames q)

section
variable {s s' : Kfs} {c : KfsOp}

theorem nameInv_start : NameInv kfsStart where
  toDirTree := dirTree_of_empty kfsInv_start.top rfl
  low := kfsInv_start.lowDentry

theorem NameInv.call (h : NameInv s) (hok : NameStepOk s c) (hc : kfsOp s c = some s') :
    NameInv s' := by
  cases c with
  | open_ path =>
    obtain ⟨r, s₁, hopen, hinv, -⟩ := h.open_ hok
    rw [kfsOp, hopen] at hc
    rwa [← Option.some.inj hc]
  | openat root name =>
    obtain ⟨leaf, s₁, hopen, hinv, -⟩ := h.openat hok.1 hok.2
    rw [kfsOp, hopen] at hc
    rwa [← Option.some.inj hc]
  | link src dst =>
    obtain ⟨r, hlink, rfl⟩ := Option.map_eq_some_iff.mp hc
    exact h.link hok.1 hok.2 hlink
  | unlink path => exact h.unlink hok.1 hok.2.1 hok.2.2 hc
  | write d k buf =>
    rw [← Option.some.inj hc]
    exact (kfsWrite_dentries s d k buf).links.nameInv h
  | setSize d n =>
    have hsame : SameDentries s (kfsSetSize s d n) := ⟨rfl, rfl⟩
    rw [← Option.some.inj hc]
    exact hsame.links.nameInv h
  | chmode i mode =>
    have hsame : SameDentries s (kfsChmode s i mode) := ⟨rfl, rfl⟩
    rw [← Option.some.inj hc]
    exact hsame.links.nameInv h
  | chowner i owner =>
    have hsame : SameDentries s (kfsChowner s i owner) := ⟨rfl, rfl⟩
    rw [← Option.some.inj hc]
    exact hsame.links.nameInv h
  | chmtime i mtime =>
    have hsame : SameDentries s (kfsChmtime s i mtime) := ⟨rfl, rfl⟩
    rw [← Option.some.inj hc]
    exact hsame.links.nameInv h

theorem NameRun.inv (h : NameRun s) : NameInv s := by
  induction h with
  | start => exact nameInv_start
  | call _ hok hc ih => exact ih.call hok hc

/-- The first `kfs_open`. -/
theorem kfsOpen_start (path : CStr) (ws : List (List (BitVec 8))) (d : Nat)
    (habs : path.byte 0 = slash) (hnames : pathNames path = ws)
    (hshort : ∀ c ∈ ws, c.length ≤ 27) (hroom : Enough kfsStart ws.length)
    (hfirst : (kfsOpen kfsStart path).map Prod.fst = some (some d)) :
    ∃ s, kfsOp kfsStart (.open_ path) = some s ∧ NameInv s ∧ NamesTo s d ws := by
  obtain ⟨r, s, top, hopen, hg, hr⟩ := nameInv_start.open_names habs
    (by rwa [ShortNames, hnames]) (.inr (by rwa [hnames]))
  rw [hopen, Option.map_some, Option.some.injEq, Option.some.injEq] at hfirst
  rw [hnames, hfirst] at hr
  exact ⟨s, by rw [kfsOp, hopen]; rfl, hg.inv, hr⟩

theorem NameInv.namesOk (h : NameInv s) : NamesOk 27 s := by
  intro p habs hshort hroom
  obtain ⟨d, s₁, top, hopen, hg, hd⟩ := h.open_names habs hshort hroom
  obtain ⟨s₂, hopen₂, hagain⟩ := hg.inv.open_found habs hshort hd
  refine ⟨d, s₁, hopen, ⟨s₂, hopen₂, hagain.toSameAlloc⟩, ⟨top, hg.used, hg.only⟩, ?_⟩
  intro q habs' hshort' hroom'
  obtain ⟨e, s₂, top', hopen', hg', he⟩ := hg.inv.open_names habs' hshort' hroom'
  have hd' := hg'.names d _ hd
  refine ⟨e, s₂, hopen', fun heq => ?_, fun heq => ?_⟩
  · rw [← heq] at he
    exact hg'.inv.names_unique hd' he
  · rw [← heq] at he
    exact hg'.inv.dentry_unique hd' he

/-- In every run whose names have at most 27 characters, `kfs_open` is a function of the
components. -/
theorem nameRun_ok (h : NameRun s) : NamesOk 27 s := h.inv.namesOk

theorem nameRun_ok_start : NamesOk 27 kfsStart := nameRun_ok .start

/-- A slash and 29 letters. -/
def slashLong : CStr := ⟨slash :: List.replicate 29 97, by decide⟩

/-- The first `kfs_open` of a name of 29 characters makes the dentry 1, the second does not
find it and makes the dentry 2. -/
theorem kfsOpen_long_again : ¬ NamesOk 31 kfsStart := by
  intro hok
  have hshort : ShortNames 31 slashLong := by
    have hall : (pathNames slashLong).all (fun c => c.length ≤ 31) = true := by decide +kernel
    intro c hc
    simpa using List.all_eq_true.mp hall c hc
  have hroom : Openable kfsStart slashLong := .inr (by unfold Enough; decide +kernel)
  obtain ⟨d, s₁, hopen, ⟨s₂, hopen', -⟩, -⟩ := hok slashLong rfl hshort hroom
  have hfirst : (kfsOpen kfsStart slashLong).map Prod.fst = some (some 1) := by decide +kernel
  have hagain : ((kfsOpen kfsStart slashLong).bind fun r => kfsOpen r.2 slashLong).map Prod.fst
      = some (some 2) := by decide +kernel
  rw [hopen, Option.bind_some, hopen'] at hagain
  rw [hopen] at hfirst
  rw [Option.map_some] at hfirst hagain
  have hd := Option.some.inj hfirst
  have hd' := Option.some.inj hagain
  rw [hd] at hd'
  exact absurd hd' (by decide)

end

end Ko6.Fs
