import Ko6.Fs.Resolve

set_option autoImplicit false

/-!
# Fs: `open_any` of `fs/pvfs.c`

A node of the tree has a name, the list of its children, the newest one first, and its
parent; the root is its own parent.  `open_any` follows the components of a path, each one
compared with the names of the children over the length that `next_slash` returns.  That
length counts the slashes around the component, so that the NUL is compared too, except
behind the last component of most paths: a child whose name only begins with it is taken.
`"."` and `".."` in front of other components are looked at in the search, behind the name of
a child, and not at all in a directory without children.

`none` is an access outside an array, `some none` is `NULL`.
-/

namespace Ko6.Fs

open Ko6.Lib Ko6.Common

/-! ## The tree -/

/-- `NAME_SIZE`. -/
def nameSize : Nat := 35

/-- `PATH_MAX`. -/
def pathMax : Nat := 4096

/-- `".."`. -/
def dotDot : List (BitVec 8) := [46, 46]

/-- `struct pfs_s`, as far as `open_any` reads it. -/
structure PfsNode where
  name : CStr
  children : List Nat
  parent : Nat

/-- The node `root`. -/
def pfsRoot : Nat := 0

/-- The first characters of a string. -/
def takeStr (n : Nat) (s : CStr) : CStr :=
  ⟨s.chars.take n, fun c hc => s.nonzero c (List.mem_of_mem_take hc)⟩

/-- `init_pfs`. -/
def initPfs (new : Nat) (name : CStr) (node : Nat → PfsNode) : Nat → PfsNode :=
  Function.update node new
    { name := takeStr (nameSize - 1) name
      children := []
      parent := new }

/-- `create_pfs`, with `new` what `kmalloc` gives. -/
def createPfs (dir : Option Nat) (name : Option CStr) (new : Option Nat) (node : Nat → PfsNode) :
    Option Nat × (Nat → PfsNode) :=
  match dir, name with
  | some dir, some name =>
    if name.byte 0 = 0 then (none, node)
    else
      match new with
      | none => (none, node)
      | some new =>
        let node := initPfs new name node
        let node := Function.update node new { node new with parent := dir }
        let node := Function.update node dir
          { node dir with children := new :: (node dir).children }
        (some new, node)
  | _, _ => (none, node)

/-! ## Functions -/

/-- `next_slash` on a path that is not empty: the next component, which needs room in the array
of `NAME_SIZE` bytes, and the length of what is skipped with it. -/
def nextSlash (path : List (BitVec 8)) : Option (List (BitVec 8) × Nat) :=
  let lead := path.takeWhile (· == slash)
  let path := path.dropWhile (· == slash)
  let word := path.takeWhile (· != slash)
  let trail := (path.dropWhile (· != slash)).takeWhile (· == slash)
  if word.length < nameSize then some (word, word.length + trail.length + lead.length) else none

/-- A string in an array, with its NUL. -/
def bytesOfWord (word : List (BitVec 8)) : Nat → BitVec 8 := fun i => word.getD i 0

/-- How the search among the children ends: with a `return`, in the directory of the next
turn and with `embedded`, or without a child found. -/
inductive PfsScan where
  | returns (node : Nat)
  | goes (dir embedded : Nat)
  | notFound
  deriving DecidableEq

/-- `list_foreach` in `open_any`; `last` is `*last_slash == 0`. -/
def openScan (node : Nat → PfsNode) (dir : Nat) (last : Bool) (next : List (BitVec 8))
    (nextSize : Nat) : List Nat → PfsScan
  | [] => .notFound
  | cur :: rest =>
    if last = true ∧ strcmp (node cur).name.chars next = 0 then .returns cur
    else if strncmp (node cur).name.byte (bytesOfWord next) nextSize = 0 then .goes cur cur
    else if strncmp (bytesOfWord dotDot) (bytesOfWord next) nextSize = 0 then
      .goes (node dir).parent cur
    else if strncmp (bytesOfWord dot) (bytesOfWord next) nextSize = 0 then .goes dir cur
    else openScan node dir last next nextSize rest

/-- The loop of `open_any`, at most `fuel` turns. -/
def openLoop (node : Nat → PfsNode) : Nat → Nat → Nat → List (BitVec 8) → Option (Option Nat)
  | 0, _, _, _ => none
  | fuel + 1, dir, embedded, path =>
    if path = [] then some (some embedded)
    else
      match nextSlash path with
      | none => none
      | some (next, nextSize) =>
        let path := path.drop nextSize
        if path = [] ∧ strcmp dotDot next = 0 then some (some (node dir).parent)
        else if path = [] ∧ strcmp dot next = 0 then some (some dir)
        else
          match openScan node dir path.isEmpty next nextSize (node dir).children with
          | .returns found => some (some found)
          | .goes dir embedded => openLoop node fuel dir embedded path
          | .notFound => some none

/-- The path without one slash at its end. -/
def dropSlash (path : List (BitVec 8)) : List (BitVec 8) :=
  if path.getLast? = some slash then path.dropLast else path

/-- `open_any`, in the directory `currentDir`. -/
def openAny (node : Nat → PfsNode) (currentDir : Nat) (name : Option CStr) : Option (Option Nat) :=
  match name with
  | none => some none
  | some name =>
    let pathname := name.chars.take (pathMax - 1)
    if strcmp pathname [slash] = 0 then some (some pfsRoot)
    -- the byte in front of the empty string is outside the array
    else if pathname = [] then none
    else
      let pathname := dropSlash pathname
      let dir := if pathname.head? = some slash then pfsRoot else currentDir
      openLoop node (pathname.length + 1) dir dir pathname

/-! ## What a path means -/

/-- The child with a name. -/
def pfsChild (node : Nat → PfsNode) (d : Nat) (c : List (BitVec 8)) : Option Nat :=
  (node d).children.find? fun x => (node x).name.chars = c

/-- Where `"."` and `".."` lead. -/
def dotStep (node : Nat → PfsNode) (d : Nat) (c : List (BitVec 8)) : Nat :=
  if c = dotDot then (node d).parent else d

/-- Follow the components. -/
def pfsWalk (node : Nat → PfsNode) : Nat → List (List (BitVec 8)) → Option Nat
  | d, [] => some d
  | d, c :: cs =>
    if c = dot ∨ c = dotDot then pfsWalk node (dotStep node d c) cs
    else (pfsChild node d c).bind fun x => pfsWalk node x cs

/-- The directory where a path starts. -/
def pathStart (currentDir : Nat) (path : CStr) : Nat :=
  if path.chars.head? = some slash then pfsRoot else currentDir

/-- `open_any` gives what the components of the path lead to. -/
def OpensExactly (node : Nat → PfsNode) (currentDir : Nat) (path : CStr) : Prop :=
  openAny node currentDir (some path) =
    some (pfsWalk node (pathStart currentDir path) (components path.chars))

/-- A tree: a child has its directory as its parent, and the children of a directory have
distinct names that fit. -/
structure PvfsTree where
  node : Nat → PfsNode
  root_parent : (node pfsRoot).parent = pfsRoot
  parent_eq : ∀ d, ∀ c ∈ (node d).children, (node c).parent = d
  names_nodup : ∀ d, ((node d).children.map fun c => (node c).name).Nodup
  name_fits : ∀ d, ∀ c ∈ (node d).children,
    0 < strlen (node c).name ∧ strlen (node c).name < nameSize ∧ slash ∉ (node c).name.chars

/-! ## Paths that are followed exactly -/

/-- The last component is compared over its own length: it has no slash behind it, nor one in
front of it when it is the only one. -/
def Loose (path : List (BitVec 8)) : Bool :=
  path.getLast? ≠ some slash ∧ (path.head? ≠ some slash ∨ 2 ≤ (components path).length)

/-- What the directories on the way have to be.  A `"."` or `".."` in front of other components
is in a directory whose first child has another name, or in one without children when what
follows names no node.  Of the children whose names begin with a last component that is
compared loosely, if any, the first one has it as its name. -/
def FollowsExactly (node : Nat → PfsNode) (loose : Bool) : Nat → List (List (BitVec 8)) → Prop
  | _, [] => False
  | d, [c] => c = dot ∨ c = dotDot ∨ (loose = true →
      ∀ x, (node d).children.find? (fun x => c.isPrefixOf (node x).name.chars) = some x →
        (node x).name.chars = c)
  | d, c :: c' :: cs =>
    if c = dot ∨ c = dotDot then
      match (node d).children with
      | [] => pfsWalk node (dotStep node d c) (c' :: cs) = none
      | x :: _ => (node x).name.chars ≠ c ∧ FollowsExactly node loose (dotStep node d c) (c' :: cs)
    else ∀ x, pfsChild node d c = some x → FollowsExactly node loose x (c' :: cs)

/-- The path is `"/"`, or it has components and they are followed exactly. -/
def PathExact (node : Nat → PfsNode) (currentDir : Nat) (path : CStr) : Prop :=
  path.chars = [slash] ∨ FollowsExactly node (Loose (dropSlash path.chars))
    (pathStart currentDir path) (components path.chars)

/-- No directory has a node called `"."` or `".."` as its first child. -/
def NoDotFirst (node : Nat → PfsNode) : Prop :=
  ∀ d x xs, (node d).children = x :: xs →
    (node x).name.chars ≠ dot ∧ (node x).name.chars ≠ dotDot

/-! ## Trees that are built -/

section
variable {node : Nat → PfsNode} {d new : Nat} {name : CStr}

theorem takeStr_eq {n : Nat} {s : CStr} (h : strlen s ≤ n) : takeStr n s = s := by
  obtain ⟨chars, hnz⟩ := s
  rw [takeStr, CStr.mk.injEq]
  exact List.take_of_length_le h

/-- The empty string. -/
def emptyStr : CStr := ⟨[], by decide⟩

/-- The nodes when only the root has been initialised. -/
def rootOnly : Nat → PfsNode :=
  initPfs pfsRoot rootPath fun _ => ⟨emptyStr, [], pfsRoot⟩

theorem rootOnly_children (d : Nat) : (rootOnly d).children = [] := by
  rw [rootOnly, initPfs, Function.update_apply]
  split
  · rfl
  · rfl

theorem not_mem_rootOnly {d c : Nat} : c ∉ (rootOnly d).children := by
  rw [rootOnly_children]
  exact List.not_mem_nil

/-- The tree of the root alone. -/
def PvfsTree.init : PvfsTree where
  node := rootOnly
  root_parent := rfl
  parent_eq _ _ hc := absurd hc not_mem_rootOnly
  names_nodup d := by
    rw [rootOnly_children]
    exact List.nodup_nil
  name_fits _ _ hc := absurd hc not_mem_rootOnly

/-- The nodes with `new` as a child of `d`, in front of the others. -/
def withChild (node : Nat → PfsNode) (d new : Nat) (name : CStr) : Nat → PfsNode :=
  Function.update (Function.update node new ⟨name, [], d⟩) d
    { node d with children := new :: (node d).children }

/-- `create_pfs` with a name that fits. -/
theorem createPfs_eq (hname : 0 < strlen name) (hfits : strlen name < nameSize) (hne : new ≠ d) :
    (createPfs (some d) (some name) (some new) node).2 = withChild node d new name := by
  have hbyte : name.byte 0 ≠ 0 := fun h => by
    rw [name.byte_eq_zero_iff] at h
    exact absurd h (Nat.not_le.mpr hname)
  have htake : takeStr (nameSize - 1) name = name := takeStr_eq (by omega)
  simp only [createPfs, if_neg hbyte, initPfs, Function.update_self, Function.update_idem, htake,
    Function.update_of_ne hne.symm, withChild]

theorem withChild_new (hne : new ≠ d) : withChild node d new name new = ⟨name, [], d⟩ := by
  rw [withChild, Function.update_of_ne hne, Function.update_self]

/-- The other nodes keep their names and parents. -/
theorem withChild_old {c : Nat} (hc : c ≠ new) :
    (withChild node d new name c).name = (node c).name ∧
      (withChild node d new name c).parent = (node c).parent := by
  rw [withChild]
  by_cases hd : c = d
  · rw [hd, Function.update_self]
    exact ⟨rfl, rfl⟩
  · rw [Function.update_of_ne hd, Function.update_of_ne hc]
    exact ⟨rfl, rfl⟩

theorem withChild_children (e : Nat) : (withChild node d new name e).children =
    if e = d then new :: (node d).children else if e = new then [] else (node e).children := by
  rw [withChild]
  by_cases hd : e = d
  · rw [hd, Function.update_self, if_pos rfl]
  · rw [Function.update_of_ne hd, if_neg hd]
    by_cases hnew : e = new
    · rw [hnew, Function.update_self, if_pos rfl]
    · rw [Function.update_of_ne hnew, if_neg hnew]

/-- The children are the new one and those that there were. -/
theorem mem_withChild {c e : Nat} (h : c ∈ (withChild node d new name e).children) :
    c = new ∧ e = d ∨ c ∈ (node e).children := by
  rw [withChild_children] at h
  by_cases hd : e = d
  · rw [if_pos hd] at h
    exact (List.mem_cons.mp h).imp (fun hc => ⟨hc, hd⟩) fun hc => hd ▸ hc
  · rw [if_neg hd] at h
    by_cases hnew : e = new
    · rw [if_pos hnew] at h
      exact absurd h List.not_mem_nil
    · rw [if_neg hnew] at h
      exact .inr h

/-- The tree with a new child of `d`, whose name its other children do not have. -/
def PvfsTree.create (t : PvfsTree) (d new : Nat) (name : CStr) (hname : 0 < strlen name)
    (hfits : strlen name < nameSize) (hslash : slash ∉ name.chars)
    (hdistinct : ∀ c ∈ (t.node d).children, (t.node c).name ≠ name)
    (hfresh : ∀ e, ∀ c ∈ (t.node e).children, c ≠ new) (hroot : new ≠ pfsRoot) (hne : new ≠ d) :
    PvfsTree where
  node := (createPfs (some d) (some name) (some new) t.node).2
  root_parent := by
    rw [createPfs_eq hname hfits hne, (withChild_old hroot.symm).2]
    exact t.root_parent
  parent_eq e c hc := by
    rw [createPfs_eq hname hfits hne] at hc ⊢
    rcases mem_withChild hc with ⟨rfl, rfl⟩ | hold
    · rw [withChild_new hne]
    · rw [(withChild_old (hfresh e c hold)).2]
      exact t.parent_eq e c hold
  names_nodup e := by
    have hold (e : Nat) : ((t.node e).children.map fun c => (withChild t.node d new name c).name) =
        (t.node e).children.map fun c => (t.node c).name :=
      List.map_congr_left fun c hc => (withChild_old (hfresh e c hc)).1
    rw [createPfs_eq hname hfits hne, withChild_children]
    by_cases hd : e = d
    · rw [if_pos hd, List.map_cons, List.nodup_cons, hold, withChild_new hne]
      refine ⟨fun hmem => ?_, t.names_nodup d⟩
      obtain ⟨c, hc, heq⟩ := List.mem_map.mp hmem
      exact hdistinct c hc heq
    · rw [if_neg hd]
      by_cases hnew : e = new
      · rw [if_pos hnew]
        exact List.nodup_nil
      · rw [if_neg hnew, hold]
        exact t.names_nodup e
  name_fits e c hc := by
    rw [createPfs_eq hname hfits hne] at hc ⊢
    rcases mem_withChild hc with ⟨rfl, rfl⟩ | hold
    · rw [withChild_new hne]
      exact ⟨hname, hfits, hslash⟩
    · rw [(withChild_old (hfresh e c hold)).1]
      exact t.name_fits e c hold

end

/-! ## Children -/

/-- A name names at most one child. -/
theorem pfsChild_eq_some_iff (t : PvfsTree) {d x : Nat} {c : List (BitVec 8)} :
    pfsChild t.node d c = some x ↔ x ∈ (t.node d).children ∧ (t.node x).name.chars = c := by
  constructor
  · intro h
    exact ⟨List.mem_of_find?_eq_some h,
      of_decide_eq_true (List.find?_some (p := fun x => (t.node x).name.chars = c) h)⟩
  · rintro ⟨hx, hname⟩
    cases hfind : pfsChild t.node d c with
    | none => exact absurd (decide_eq_true hname) (List.find?_eq_none.mp hfind x hx)
    | some y =>
      have hy := List.mem_of_find?_eq_some hfind
      have hyname : (t.node y).name.chars = c :=
        of_decide_eq_true (List.find?_some (p := fun x => (t.node x).name.chars = c) hfind)
      rw [List.inj_on_of_nodup_map (t.names_nodup d) hy hx
        (CStr.strcmp_eq_zero_iff.mp ((strcmp_eq_zero (t.node y).name.nonzero
          (t.node x).name.nonzero).mpr (hyname.trans hname.symm)))]

/-! ## Comparisons -/

section
variable {s w : CStr} {n : Nat}

/-- `strncmp` over more than the length of the second string: they are equal. -/
theorem strncmp_word_iff (hn : strlen w < n) :
    strncmp s.byte (bytesOfWord w.chars) n = 0 ↔ s.chars = w.chars := by
  rw [show bytesOfWord w.chars = w.byte from rfl, strncmp_eq_zero_iff]
  constructor
  · intro h
    refine congrArg CStr.chars (CStr.eq_of_byte fun i hi hi' => h i (by omega) fun j hj hzero => ?_)
    rw [s.byte_eq_zero_iff] at hzero
    unfold strlen at hi
    omega
  · intro h i _ _
    rw [CStr.byte, CStr.byte, h]

theorem strcmp_word_iff : strcmp s.chars w.chars = 0 ↔ s.chars = w.chars :=
  strcmp_eq_zero s.nonzero w.nonzero

/-- `"."` and `".."` as strings. -/
def dotStr : CStr := ⟨dot, by decide⟩
def dotDotStr : CStr := ⟨dotDot, by decide⟩

/-- Only the empty string, `"."` and `".."` are prefixes of `".."`. -/
theorem prefix_dotDot {c : List (BitVec 8)} (h : c <+: dotDot) : c = [] ∨ c = dot ∨ c = dotDot := by
  have hmem := (List.mem_inits c dotDot).mpr h
  simpa [dotDot, dot] using hmem

theorem prefix_dot {c : List (BitVec 8)} (h : c <+: dot) : c = [] ∨ c = dot := by
  have hmem := (List.mem_inits c dot).mpr h
  simpa [dot] using hmem

end

/-! ## The search among the children -/

section
variable {node : Nat → PfsNode} {d n : Nat} {c : CStr} {last : Bool}

/-- A name that is compared with its NUL is that of the child that is found. -/
theorem openScan_strict (hn : strlen c < n) (hdot : c.chars ≠ dot) (hdotDot : c.chars ≠ dotDot)
    (cs : List Nat) :
    openScan node d last c.chars n cs = match cs.find? fun x => (node x).name.chars = c.chars with
      | none => .notFound
      | some x => if last = true then .returns x else .goes x x := by
  induction cs with
  | nil => rfl
  | cons x cs ih =>
    have hskipDotDot : ¬ strncmp (bytesOfWord dotDot) (bytesOfWord c.chars) n = 0 := fun h =>
      hdotDot ((strncmp_word_iff (s := dotDotStr) hn).mp h).symm
    have hskipDot : ¬ strncmp (bytesOfWord dot) (bytesOfWord c.chars) n = 0 := fun h =>
      hdot ((strncmp_word_iff (s := dotStr) hn).mp h).symm
    rw [openScan, if_neg hskipDotDot, if_neg hskipDot]
    simp only [strcmp_word_iff, strncmp_word_iff hn]
    by_cases hname : (node x).name.chars = c.chars
    · rw [List.find?_cons_of_pos (by simpa using hname)]
      cases last with
      | true => rw [if_pos ⟨rfl, hname⟩]; rfl
      | false => rw [if_neg (fun h => nomatch h.1), if_pos hname]; rfl
    · rw [List.find?_cons_of_neg (by simpa using hname), if_neg (fun h => hname h.2),
        if_neg hname]
      exact ih

/-- `"."` and `".."` are looked at behind the name of the first child. -/
theorem openScan_dot (hn : strlen c < n) (hdot : c.chars = dot ∨ c.chars = dotDot)
    (cs : List Nat) :
    openScan node d false c.chars n cs = match cs with
      | [] => .notFound
      | x :: _ => if (node x).name.chars = c.chars then .goes x x
        else .goes (dotStep node d c.chars) x := by
  cases cs with
  | nil => rfl
  | cons x cs =>
    have hdotDotStr : strncmp (bytesOfWord dotDot) (bytesOfWord c.chars) n = 0 ↔ dotDot = c.chars :=
      strncmp_word_iff (s := dotDotStr) hn
    have hdotStr : strncmp (bytesOfWord dot) (bytesOfWord c.chars) n = 0 ↔ dot = c.chars :=
      strncmp_word_iff (s := dotStr) hn
    rw [openScan, if_neg (fun h => nomatch h.1)]
    simp only [strncmp_word_iff hn, hdotDotStr, hdotStr]
    by_cases hname : (node x).name.chars = c.chars
    · rw [if_pos hname, if_pos hname]
    · rw [if_neg hname, if_neg hname]
      rcases hdot with hdot | hdot
      · rw [hdot, if_neg (by decide), if_pos rfl, dotStep, if_neg (by decide)]
      · rw [hdot, if_pos rfl, dotStep, if_pos rfl]

/-- A name that is compared over its length is found in the first child that begins with it. -/
theorem openScan_loose (hne : c.chars ≠ []) (hdot : c.chars ≠ dot) (hdotDot : c.chars ≠ dotDot)
    (cs : List Nat) :
    openScan node d true c.chars (strlen c) cs =
      match cs.find? fun x => c.chars.isPrefixOf (node x).name.chars with
      | none => .notFound
      | some x => if (node x).name.chars = c.chars then .returns x else .goes x x := by
  induction cs with
  | nil => rfl
  | cons x cs ih =>
    have hskipDotDot : ¬ strncmp (bytesOfWord dotDot) (bytesOfWord c.chars) (strlen c) = 0 :=
      fun h => by
        rcases prefix_dotDot ((strncmp_prefix_iff (s := dotDotStr)).mp h) with h | h | h
        · exact hne h
        · exact hdot h
        · exact hdotDot h
    have hskipDot : ¬ strncmp (bytesOfWord dot) (bytesOfWord c.chars) (strlen c) = 0 := fun h =>
      (prefix_dot ((strncmp_prefix_iff (s := dotStr)).mp h)).elim hne hdot
    have hprefix : strncmp (node x).name.byte (bytesOfWord c.chars) (strlen c) = 0 ↔
        c.chars <+: (node x).name.chars := strncmp_prefix_iff
    rw [openScan, if_neg hskipDotDot, if_neg hskipDot]
    simp only [strcmp_word_iff, hprefix, true_and]
    by_cases hname : (node x).name.chars = c.chars
    · rw [if_pos hname, List.find?_cons_of_pos (by rw [hname]; simp)]
      simp only [if_pos hname]
    · rw [if_neg hname]
      by_cases hpre : c.chars <+: (node x).name.chars
      · rw [if_pos hpre, List.find?_cons, List.isPrefixOf_iff_prefix.mpr hpre]
        simp only [if_neg hname]
      · rw [if_neg hpre, List.find?_cons,
          Bool.eq_false_iff.mpr fun h => hpre (List.isPrefixOf_iff_prefix.mp h)]
        exact ih

end

/-! ## The parts of a path -/

/-- A path as slashes, its first component, slashes and a rest. -/
structure PathParts (path lead word trail rest : List (BitVec 8)) : Prop where
  path_eq : path = lead ++ (word ++ (trail ++ rest))
  lead_slash : ∀ c ∈ lead, c = slash
  word_plain : ∀ c ∈ word, c ≠ slash
  trail_slash : ∀ c ∈ trail, c = slash
  word_head : word = [] → trail = [] ∧ rest = []
  trail_head : trail = [] → rest = []
  rest_head : rest.head? ≠ some slash

section
variable {path lead word trail rest : List (BitVec 8)}

/-- Every path has such parts. -/
theorem exists_pathParts (path : List (BitVec 8)) :
    ∃ lead word trail rest, PathParts path lead word trail rest := by
  obtain ⟨lead, path₁, rfl, hlead, hhead₁⟩ := exists_run (· == slash) path
  obtain ⟨word, path₂, rfl, hword, hhead₂⟩ := exists_run (· != slash) path₁
  obtain ⟨trail, rest, rfl, htrail, hhead₃⟩ := exists_run (· == slash) path₂
  refine ⟨lead, word, trail, rest, rfl, fun c hc => beq_iff_eq.mp (hlead c hc),
    fun c hc => bne_iff_ne.mp (hword c hc), fun c hc => beq_iff_eq.mp (htrail c hc),
    fun hnil => ?_, fun hnil => ?_, fun hhead => ?_⟩
  · -- what follows the first slashes is no slash, what follows the component is one
    subst hnil
    rcases hhead₂ with hend | ⟨c, l, hc, hslash⟩
    · exact List.append_eq_nil_iff.mp hend
    · rcases hhead₁ with hend | ⟨c', l', hc', hplain⟩
      · exact List.append_eq_nil_iff.mp hend
      · rw [List.nil_append, hc] at hc'
        obtain ⟨rfl, -⟩ := List.cons.inj hc'
        rw [bne, hplain] at hslash
        exact nomatch hslash
  · subst hnil
    rcases hhead₂ with hend | ⟨c, l, hc, hslash⟩
    · exact hend
    · rcases hhead₃ with hend | ⟨c', l', hc', hplain⟩
      · exact hend
      · rw [List.nil_append, hc'] at hc
        obtain ⟨rfl, -⟩ := List.cons.inj hc
        rw [bne, hplain] at hslash
        exact nomatch hslash
  · rcases hhead₃ with rfl | ⟨c, l, rfl, hplain⟩
    · exact nomatch hhead
    · rw [List.head?_cons, Option.some.injEq] at hhead
      rw [hhead, beq_self_eq_true] at hplain
      exact nomatch hplain

/-- A run is what `takeWhile` takes. -/
theorem takeWhile_run {q : BitVec 8 → Bool} {w l : List (BitVec 8)} (hw : ∀ c ∈ w, q c = true)
    (hl : ∀ c, l.head? = some c → q c = false) :
    (w ++ l).takeWhile q = w ∧ (w ++ l).dropWhile q = l := by
  rw [List.takeWhile_append_of_pos hw, List.dropWhile_append_of_pos hw]
  cases l with
  | nil => exact ⟨List.append_nil w, rfl⟩
  | cons c l =>
    have hc := hl c rfl
    rw [List.takeWhile_cons_of_neg (by simp [hc]), List.dropWhile_cons_of_neg (by simp [hc])]
    exact ⟨List.append_nil w, rfl⟩

namespace PathParts

variable (h : PathParts path lead word trail rest)
include h

theorem trail_head_ne {c : BitVec 8} (hc : (trail ++ rest).head? = some c) : c = slash := by
  cases trail with
  | nil =>
    rw [h.trail_head rfl] at hc
    exact nomatch hc
  | cons a trail =>
    obtain rfl : a = c := Option.some.inj hc
    exact h.trail_slash a List.mem_cons_self

theorem word_head_ne {c : BitVec 8} (hc : (word ++ (trail ++ rest)).head? = some c) :
    c ≠ slash := by
  cases word with
  | nil =>
    rw [(h.word_head rfl).1, (h.word_head rfl).2] at hc
    exact nomatch hc
  | cons a word =>
    obtain rfl : a = c := Option.some.inj hc
    exact h.word_plain a List.mem_cons_self

/-- `next_slash` gives the component and the length of all that is in front of the rest. -/
theorem nextSlash_eq (hword : word.length < nameSize) :
    nextSlash path = some (word, word.length + trail.length + lead.length) := by
  have hlead : ∀ c ∈ lead, (c == slash) = true := fun c hc => beq_iff_eq.mpr (h.lead_slash c hc)
  have hplain : ∀ c ∈ word, (c != slash) = true := fun c hc => bne_iff_ne.mpr (h.word_plain c hc)
  have htrail : ∀ c ∈ trail, (c == slash) = true := fun c hc => beq_iff_eq.mpr (h.trail_slash c hc)
  have h₁ := takeWhile_run hlead fun c hc => beq_eq_false_iff_ne.mpr (h.word_head_ne hc)
  have h₂ := takeWhile_run hplain fun c hc => by
    rw [h.trail_head_ne hc]
    rfl
  have h₃ := takeWhile_run htrail fun c hc => beq_eq_false_iff_ne.mpr fun hslash =>
    h.rest_head (hc.trans (congrArg some hslash))
  rw [nextSlash, h.path_eq, h₁.1, h₁.2, h₂.1, h₂.2, h₃.1]
  exact if_pos hword

theorem drop_eq : path.drop (word.length + trail.length + lead.length) = rest := by
  rw [h.path_eq, ← List.append_assoc, ← List.append_assoc, List.append_assoc lead]
  refine List.drop_left' ?_
  rw [List.length_append, List.length_append, Nat.add_comm]

/-- The components of a path whose first component is not empty. -/
theorem components_eq (hne : word ≠ []) : components path = word :: components rest := by
  have hlead : ∀ c ∈ lead, (c == slash) = true := fun c hc => beq_iff_eq.mpr (h.lead_slash c hc)
  have hplain : ∀ c ∈ word, (c == slash) = false := fun c hc =>
    beq_eq_false_iff_ne.mpr (h.word_plain c hc)
  rw [components, h.path_eq, tokens_seps_append hlead]
  cases htrail : trail with
  | nil =>
    rw [h.trail_head htrail, List.append_nil, List.append_nil, tokens_word hne hplain, components,
      tokens_nil]
  | cons a l =>
    have hslash : ∀ c ∈ a :: l, (c == slash) = true := fun c hc =>
      beq_iff_eq.mpr (h.trail_slash c (htrail ▸ hc))
    rw [List.cons_append, tokens_word_sep hne hplain (hslash a List.mem_cons_self),
      tokens_seps_append fun c hc => hslash c (List.mem_cons_of_mem _ hc), components]

/-- A path of slashes has no components. -/
theorem components_nil (hnil : word = []) : components path = [] := by
  have hlead : ∀ c ∈ lead, (c == slash) = true := fun c hc => beq_iff_eq.mpr (h.lead_slash c hc)
  obtain ⟨htrail, hrest⟩ := h.word_head hnil
  rw [components, h.path_eq, hnil, htrail, hrest, tokens_seps_append hlead]
  exact tokens_nil

/-- The first component of what does not begin with a slash is not empty. -/
theorem word_ne_nil (hne : path ≠ []) (hhead : path.head? ≠ some slash) : lead = [] ∧ word ≠ [] := by
  have hlead : lead = [] := by
    cases hcase : lead with
    | nil => rfl
    | cons a l =>
      rw [h.path_eq, hcase, List.cons_append, List.head?_cons,
        h.lead_slash a (hcase ▸ List.mem_cons_self)] at hhead
      exact absurd rfl hhead
  refine ⟨hlead, fun hword => hne ?_⟩
  rw [h.path_eq, hlead, hword, (h.word_head hword).1, (h.word_head hword).2]
  rfl

end PathParts

/-- What does not begin with a slash has components. -/
theorem components_ne_nil (hne : path ≠ []) (hhead : path.head? ≠ some slash) :
    components path ≠ [] := by
  obtain ⟨lead, word, trail, rest, h⟩ := exists_pathParts path
  rw [h.components_eq (h.word_ne_nil hne hhead).2]
  exact List.cons_ne_nil _ _

/-- The comparison of the last component is the same for the path and for its rest. -/
theorem PathParts.loose_eq (h : PathParts path lead word trail rest) (hword : word ≠ [])
    (hrest : rest ≠ []) : Loose path = Loose rest := by
  have hlast : path.getLast? = rest.getLast? := by
    rw [h.path_eq, List.getLast?_append_of_ne_nil _ (by simp [hrest]),
      List.getLast?_append_of_ne_nil _ (by simp [hrest]), List.getLast?_append_of_ne_nil _ hrest]
  have htwo : 2 ≤ (components path).length := by
    rw [h.components_eq hword, List.length_cons]
    exact Nat.succ_le_succ (List.length_pos_of_ne_nil (components_ne_nil hrest h.rest_head))
  rw [Loose, Loose, hlast]
  simp only [htwo, h.rest_head, ne_eq, not_false_iff, or_true, true_or]

/-- A path of one component is compared loosely when there is no slash around it. -/
theorem PathParts.loose_iff (h : PathParts path lead word trail rest) (hword : word ≠ [])
    (hrest : rest = []) : Loose path = true ↔ lead = [] ∧ trail = [] := by
  have hone : ¬ 2 ≤ (components path).length := by
    rw [h.components_eq hword, hrest, components, tokens_nil, List.length_singleton]
    decide
  rw [Loose, decide_eq_true_iff]
  simp only [hone, or_false]
  rw [h.path_eq, hrest, List.append_nil]
  obtain ⟨a, w, rfl⟩ := List.exists_cons_of_ne_nil hword
  constructor
  · rintro ⟨hlast, hhead⟩
    constructor
    · cases hcase : lead with
      | nil => rfl
      | cons b l =>
        rw [hcase, List.cons_append, List.head?_cons,
          h.lead_slash b (hcase ▸ List.mem_cons_self)] at hhead
        exact absurd rfl hhead
    · by_contra htrail
      rw [List.getLast?_append_of_ne_nil _ (by simp), List.getLast?_append_of_ne_nil _ htrail,
        List.getLast?_eq_some_getLast htrail,
        h.trail_slash _ (List.getLast_mem htrail)] at hlast
      exact hlast rfl
  · rintro ⟨rfl, rfl⟩
    rw [List.nil_append, List.append_nil, List.head?_cons, List.getLast?_eq_some_getLast hword]
    exact ⟨fun hlast => h.word_plain _ (List.getLast_mem hword) (Option.some.inj hlast),
      fun hhead => h.word_plain a List.mem_cons_self (Option.some.inj hhead)⟩

end

/-! ## The loop -/

section
variable {node : Nat → PfsNode} {d e fuel : Nat} {path lead trail rest : List (BitVec 8)} {c : CStr}

/-- A turn of the loop. -/
theorem openLoop_succ (h : PathParts path lead c.chars trail rest) (hne : path ≠ [])
    (hfits : strlen c < nameSize) :
    openLoop node (fuel + 1) d e path =
      if rest = [] ∧ c.chars = dotDot then some (some (node d).parent)
      else if rest = [] ∧ c.chars = dot then some (some d)
      else
        match openScan node d rest.isEmpty c.chars (strlen c + trail.length + lead.length)
          (node d).children with
        | .returns found => some (some found)
        | .goes dir embedded => openLoop node fuel dir embedded rest
        | .notFound => some none := by
  have hdotDot : strcmp dotDot c.chars = 0 ↔ c.chars = dotDot :=
    (strcmp_word_iff (s := dotDotStr)).trans eq_comm
  have hdot : strcmp dot c.chars = 0 ↔ c.chars = dot :=
    (strcmp_word_iff (s := dotStr)).trans eq_comm
  rw [openLoop, if_neg hne, h.nextSlash_eq hfits]
  simp only [h.drop_eq, hdotDot, hdot]
  rfl

/-- The end of the path. -/
theorem openLoop_nil : openLoop node (fuel + 1) d e [] = some (some e) := if_pos rfl

theorem pfsWalk_dot {cs : List (List (BitVec 8))} (hdot : c.chars = dot ∨ c.chars = dotDot) :
    pfsWalk node d (c.chars :: cs) = pfsWalk node (dotStep node d c.chars) cs := by
  rw [pfsWalk, if_pos hdot]

theorem pfsWalk_name {cs : List (List (BitVec 8))} (hdot : ¬ (c.chars = dot ∨ c.chars = dotDot)) :
    pfsWalk node d (c.chars :: cs) = (pfsChild node d c.chars).bind fun x => pfsWalk node x cs := by
  rw [pfsWalk, if_neg hdot]

theorem pfsChild_name {x : Nat} (h : pfsChild node d c.chars = some x) :
    (node x).name.chars = c.chars :=
  of_decide_eq_true (List.find?_some (p := fun x => (node x).name.chars = c.chars) h)

theorem pfsWalk_singleton (hdot : ¬ (c.chars = dot ∨ c.chars = dotDot)) :
    pfsWalk node d [c.chars] = pfsChild node d c.chars := by
  rw [pfsWalk_name hdot]
  exact Option.bind_fun_some _

/-- The first element with a property is the first one with a stronger property that it has. -/
theorem find?_of_imp {p q : Nat → Bool} {l : List Nat} {x : Nat} (himp : ∀ x, p x → q x)
    (h : l.find? q = some x) (hx : p x) : l.find? p = some x := by
  induction l with
  | nil => exact nomatch h
  | cons y l ih =>
    by_cases hq : q y = true
    · rw [List.find?_cons_of_pos hq] at h
      obtain rfl : y = x := Option.some.inj h
      exact List.find?_cons_of_pos hx
    · rw [List.find?_cons_of_neg hq] at h
      rw [List.find?_cons_of_neg fun hp => hq (himp y hp)]
      exact ih h

/-- A path of slashes leads nowhere. -/
theorem openLoop_slashes (t : PvfsTree) (h : PathParts path lead [] trail rest) (hne : path ≠ []) :
    openLoop t.node (fuel + 1) d e path = some none := by
  obtain ⟨rfl, rfl⟩ := h.word_head rfl
  have hlead : lead ≠ [] := by
    rintro rfl
    exact hne h.path_eq
  have hfind : (t.node d).children.find? (fun x => (t.node x).name.chars = ([] : List (BitVec 8))) =
      none := by
    rw [List.find?_eq_none]
    intro x hx hname
    have hpos := (t.name_fits d x hx).1
    rw [strlen, of_decide_eq_true hname] at hpos
    exact absurd hpos (Nat.lt_irrefl 0)
  have hn : strlen emptyStr < strlen emptyStr + 0 + lead.length :=
    Nat.lt_add_of_pos_right (List.length_pos_of_ne_nil hlead)
  have hscan : openScan t.node d true [] (strlen emptyStr + 0 + lead.length) (t.node d).children =
      _ := openScan_strict (c := emptyStr) hn (by decide) (by decide) (t.node d).children
  rw [show emptyStr.chars = [] from rfl, hfind] at hscan
  rw [openLoop_succ (c := emptyStr) h hne (by decide), if_neg (by decide), if_neg (by decide)]
  simp only [List.isEmpty_nil, List.length_nil, show emptyStr.chars = [] from rfl, hscan]

/-- The last component. -/
theorem openLoop_last (h : PathParts path lead c.chars trail []) (hne : c.chars ≠ [])
    (hfits : strlen c < nameSize) : openLoop node (fuel + 2) d e path =
      some (pfsWalk node d [c.chars]) ↔ FollowsExactly node (Loose path) d [c.chars] := by
  have hpath : path ≠ [] := fun hnil =>
    hne (List.append_eq_nil_iff.mp (List.append_eq_nil_iff.mp (h.path_eq.symm.trans hnil)).2).1
  rw [openLoop_succ h hpath hfits, FollowsExactly]
  by_cases hdotDot : c.chars = dotDot
  · rw [if_pos ⟨rfl, hdotDot⟩, pfsWalk_dot (.inr hdotDot), dotStep, if_pos hdotDot]
    exact ⟨fun _ => .inr (.inl hdotDot), fun _ => rfl⟩
  rw [if_neg fun hand => hdotDot hand.2]
  by_cases hdot : c.chars = dot
  · rw [if_pos ⟨rfl, hdot⟩, pfsWalk_dot (.inl hdot), dotStep, if_neg hdotDot]
    exact ⟨fun _ => .inl hdot, fun _ => rfl⟩
  rw [if_neg fun hand => hdot hand.2, pfsWalk_singleton (not_or.mpr ⟨hdot, hdotDot⟩),
    List.isEmpty_nil]
  simp only [hdot, hdotDot, false_or]
  by_cases hloose : Loose path = true
  · obtain ⟨rfl, rfl⟩ := (h.loose_iff hne rfl).mp hloose
    rw [List.length_nil, Nat.add_zero, openScan_loose hne hdot hdotDot]
    have himp : ∀ x, decide ((node x).name.chars = c.chars) = true →
        c.chars.isPrefixOf (node x).name.chars = true := fun x hname => by
      rw [of_decide_eq_true hname]
      exact List.isPrefixOf_iff_prefix.mpr (List.prefix_refl _)
    cases hfind : (node d).children.find? fun x => c.chars.isPrefixOf (node x).name.chars with
    | none =>
      have hchild : pfsChild node d c.chars = none := by
        rw [List.find?_eq_none] at hfind
        exact List.find?_eq_none.mpr fun x hx hname => hfind x hx (himp x hname)
      rw [hchild]
      exact ⟨fun _ _ x hx => (nomatch hx), fun _ => rfl⟩
    | some x =>
      by_cases hname : (node x).name.chars = c.chars
      · have hchild : pfsChild node d c.chars = some x :=
          find?_of_imp himp hfind (decide_eq_true hname)
        simp only [if_pos hname, hchild, true_iff]
        exact fun _ y hy => Option.some.inj hy ▸ hname
      · simp only [if_neg hname, openLoop_nil, Option.some.injEq]
        exact ⟨fun hchild => absurd (pfsChild_name hchild.symm) hname,
          fun h => absurd (h hloose x rfl) hname⟩
  · have hn : strlen c < strlen c + trail.length + lead.length := by
      rw [h.loose_iff hne rfl, not_and_or] at hloose
      rcases hloose with hlead | htrail
      · have := List.length_pos_of_ne_nil hlead
        omega
      · have := List.length_pos_of_ne_nil htrail
        omega
    have hscan : openScan node d true c.chars _ (node d).children = _ :=
      openScan_strict hn hdot hdotDot (node d).children
    rw [hscan, ← pfsChild]
    refine ⟨fun _ h => absurd h hloose, fun _ => ?_⟩
    cases pfsChild node d c.chars with
    | none => rfl
    | some x => rfl

/-- A component in front of others. -/
theorem openLoop_inner (h : PathParts path lead c.chars trail rest) (hrest : rest ≠ [])
    (hfits : strlen c < nameSize) : openLoop node (fuel + 1) d e path =
      if c.chars = dot ∨ c.chars = dotDot then
        match (node d).children with
        | [] => some none
        | x :: _ =>
          if (node x).name.chars = c.chars then openLoop node fuel x x rest
          else openLoop node fuel (dotStep node d c.chars) x rest
      else
        match pfsChild node d c.chars with
        | none => some none
        | some x => openLoop node fuel x x rest := by
  have hpath : path ≠ [] := fun hnil => hrest (List.append_eq_nil_iff.mp (List.append_eq_nil_iff.mp
    (List.append_eq_nil_iff.mp (h.path_eq.symm.trans hnil)).2).2).2
  have hn : strlen c < strlen c + trail.length + lead.length := by
    have := List.length_pos_of_ne_nil fun htrail => hrest (h.trail_head htrail)
    omega
  have hempty : rest.isEmpty = false := List.isEmpty_eq_false_iff.mpr hrest
  rw [openLoop_succ h hpath hfits, if_neg fun hand => hrest hand.1, if_neg fun hand => hrest hand.1,
    hempty]
  by_cases hdot : c.chars = dot ∨ c.chars = dotDot
  · rw [if_pos hdot, openScan_dot hn hdot]
    cases (node d).children with
    | nil => rfl
    | cons x xs =>
      by_cases hname : (node x).name.chars = c.chars
      · simp only [if_pos hname]
      · simp only [if_neg hname]
  · rw [if_neg hdot, openScan_strict hn (fun hc => hdot (.inl hc)) (fun hc => hdot (.inr hc)),
      ← pfsChild]
    cases pfsChild node d c.chars with
    | none => rfl
    | some x => rfl

end

/-- The loop gives what the components lead to exactly when they are followed exactly, but
for accidents behind a directory whose first child is called `"."` or `".."`. -/
theorem openLoop_exact (t : PvfsTree) {fuel d e : Nat} {path : List (BitVec 8)} (hne : path ≠ [])
    (hfuel : path.length < fuel) (hnz : ∀ c ∈ path, c ≠ 0)
    (hfits : ∀ c ∈ components path, c.length < nameSize) :
    (FollowsExactly t.node (Loose path) d (components path) →
      openLoop t.node fuel d e path = some (pfsWalk t.node d (components path))) ∧
    (NoDotFirst t.node →
      openLoop t.node fuel d e path = some (pfsWalk t.node d (components path)) →
      FollowsExactly t.node (Loose path) d (components path)) := by
  induction fuel generalizing d e path with
  | zero => exact absurd hfuel (Nat.not_lt_zero _)
  | succ fuel ih =>
    obtain ⟨lead, word, trail, rest, h⟩ := exists_pathParts path
    by_cases hword : word = []
    · subst hword
      rw [h.components_nil rfl, openLoop_slashes t h hne, FollowsExactly]
      exact ⟨False.elim, fun _ heq => nomatch heq⟩
    have hcomps := h.components_eq hword
    rw [hcomps] at hfits ⊢
    obtain ⟨c, rfl⟩ : ∃ c : CStr, c.chars = word := ⟨⟨word, fun x hx => hnz x (by
      rw [h.path_eq]
      exact List.mem_append_right _ (List.mem_append_left _ hx))⟩, rfl⟩
    have hc : strlen c < nameSize := hfits c.chars List.mem_cons_self
    have hlen : path.length = lead.length + (c.chars.length + (trail.length + rest.length)) := by
      rw [h.path_eq, List.length_append, List.length_append, List.length_append]
    have hpos := List.length_pos_of_ne_nil hword
    by_cases hrest : rest = []
    · subst hrest
      obtain ⟨fuel, rfl⟩ : ∃ m, fuel = m + 1 := ⟨fuel - 1, by omega⟩
      rw [show components ([] : List (BitVec 8)) = [] from tokens_nil]
      have hlast : openLoop t.node (fuel + 2) d e path = _ ↔ _ := openLoop_last h hword hc
      exact ⟨hlast.mpr, fun _ => hlast.mp⟩
    · have hih (d e : Nat) := ih (d := d) (e := e) hrest (by omega)
        (fun x hx => hnz x (by
          rw [h.path_eq]
          exact List.mem_append_right _ (List.mem_append_right _ (List.mem_append_right _ hx))))
        fun x hx => hfits x (List.mem_cons_of_mem _ hx)
      obtain ⟨c', cs, hcs⟩ := List.exists_cons_of_ne_nil (components_ne_nil hrest h.rest_head)
      rw [h.loose_eq hword hrest, openLoop_inner h hrest hc]
      rw [hcs] at hih ⊢
      rw [FollowsExactly]
      by_cases hdot : c.chars = dot ∨ c.chars = dotDot
      · rw [if_pos hdot, if_pos hdot, pfsWalk_dot hdot]
        cases hchildren : (t.node d).children with
        | nil => exact ⟨fun heq => congrArg some heq.symm, fun _ heq => (Option.some.inj heq).symm⟩
        | cons x xs =>
          simp only
          constructor
          · rintro ⟨hname, hfollows⟩
            rw [if_neg hname]
            exact (hih _ _).1 hfollows
          · intro hfirst heq
            have hname : (t.node x).name.chars ≠ c.chars := fun hname => by
              have := hfirst d x xs hchildren
              rw [hname] at this
              exact hdot.elim this.1 this.2
            rw [if_neg hname] at heq
            exact ⟨hname, (hih _ _).2 hfirst heq⟩
      · rw [if_neg hdot, if_neg hdot, pfsWalk_name hdot]
        cases pfsChild t.node d c.chars with
        | none => exact ⟨fun _ => rfl, fun _ _ x hx => nomatch hx⟩
        | some x =>
          refine ⟨fun hfollows => (hih x x).1 (hfollows x rfl), fun hfirst heq y hy => ?_⟩
          obtain rfl : x = y := Option.some.inj hy
          exact (hih x x).2 hfirst heq

/-! ## Opening -/

section
variable {path : List (BitVec 8)}

/-- The slash at the end is in no component. -/
theorem components_dropSlash (path : List (BitVec 8)) :
    components (dropSlash path) = components path := by
  rw [dropSlash]
  split
  next hlast =>
    obtain ⟨init, rfl⟩ := List.getLast?_eq_some_iff.mp hlast
    rw [List.dropLast_concat, components, components, tokens_append_sep (p := (· == slash)) init [] (beq_self_eq_true slash),
      tokens_nil, List.append_nil]
  next => rfl

/-- What is left of a path that is not `"/"` begins as the path does. -/
theorem dropSlash_head (hne : path ≠ []) (hroot : path ≠ [slash]) :
    dropSlash path ≠ [] ∧ (dropSlash path).head? = path.head? ∧
      ∀ c ∈ dropSlash path, c ∈ path := by
  rw [dropSlash]
  split
  next hlast =>
    obtain ⟨init, rfl⟩ := List.getLast?_eq_some_iff.mp hlast
    rw [List.dropLast_concat]
    cases init with
    | nil => exact absurd rfl hroot
    | cons a init =>
      exact ⟨List.cons_ne_nil _ _, rfl, fun c hc => List.mem_append_left _ hc⟩
  next => exact ⟨hne, rfl, fun c hc => hc⟩

end

/-- In every tree, from every directory and for every path, `open_any` gives what the
components lead to when the path is followed exactly; and only then, unless a directory has a
node called `"."` or `".."` as its first child. -/
theorem openAny_exact (t : PvfsTree) (currentDir : Nat) {path : CStr} (hne : 0 < strlen path)
    (hlen : strlen path < pathMax) (hfits : ∀ c ∈ components path.chars, c.length < nameSize) :
    (PathExact t.node currentDir path → OpensExactly t.node currentDir path) ∧
    (NoDotFirst t.node → OpensExactly t.node currentDir path → PathExact t.node currentDir path) := by
  have htake : path.chars.take (pathMax - 1) = path.chars :=
    List.take_of_length_le (by unfold strlen at hlen; omega)
  have hcmp : strcmp path.chars [slash] = 0 ↔ path.chars = [slash] :=
    strcmp_word_iff (w := rootPath)
  have hnil : path.chars ≠ [] := List.ne_nil_of_length_pos hne
  rw [PathExact, OpensExactly, openAny]
  simp only [htake, hcmp, if_neg hnil]
  by_cases hroot : path.chars = [slash]
  · have hwalk : pfsWalk t.node (pathStart currentDir path) (components path.chars) =
        some pfsRoot := by
      rw [pathStart, hroot]
      rfl
    rw [if_pos hroot, hwalk]
    exact ⟨fun _ => rfl, fun _ _ => .inl hroot⟩
  · obtain ⟨hdrop, hhead, hmem⟩ := dropSlash_head hnil hroot
    have hloop := openLoop_exact t (d := pathStart currentDir path) (e := pathStart currentDir path)
      hdrop (Nat.lt_succ_self _) (fun c hc => path.nonzero c (hmem c hc))
      (fun c hc => hfits c (by rwa [components_dropSlash] at hc))
    rw [components_dropSlash] at hloop
    rw [if_neg hroot, hhead]
    simp only [hroot, false_or]
    exact hloop

/-! ## Paths that are not followed exactly -/

/-- `"data"`. -/
def dataStr : CStr := ⟨[100, 97, 116, 97], by decide⟩

/-- The root with a child `data`. -/
def dataTree : PvfsTree :=
  PvfsTree.init.create 0 1 dataStr (by decide) (by decide) (by decide) (fun _ hc => absurd hc not_mem_rootOnly)
    (fun _ _ hc => absurd hc not_mem_rootOnly)
    (by decide) (by decide)

/-- `"da"`, `"//"` and `"../data"`. -/
def daStr : CStr := ⟨[100, 97], by decide⟩
def slashesStr : CStr := ⟨[slash, slash], by decide⟩
def upStr : CStr := ⟨[46, 46, slash, 100, 97, 116, 97], by decide⟩

/-- `"da"` opens `data`, `"//"` does not open the root, and `"../data"` nothing from `data`, which
is empty. -/
theorem openAny_not_exact :
    openAny dataTree.node 0 (some daStr) = some (some 1) ∧
    openAny dataTree.node 0 (some slashesStr) = some none ∧
    openAny dataTree.node 1 (some upStr) = some none ∧
    ¬ OpensExactly dataTree.node 0 daStr ∧ ¬ OpensExactly dataTree.node 0 slashesStr ∧
    ¬ OpensExactly dataTree.node 1 upStr := by
  refine ⟨by decide +kernel, by decide +kernel, by decide +kernel, ?_, ?_, ?_⟩
  · unfold OpensExactly
    decide +kernel
  · unfold OpensExactly
    decide +kernel
  · unfold OpensExactly
    decide +kernel

/-- `"//data/"`. -/
def slashData : CStr := ⟨[slash, slash, 100, 97, 116, 97, slash], by decide⟩

/-- `"//data/"` opens `data`. -/
theorem openAny_exact_data : OpensExactly dataTree.node 1 slashData ∧
    pfsWalk dataTree.node pfsRoot (components slashData.chars) = some 1 := by
  refine ⟨(openAny_exact dataTree 1 (by decide) (by decide) (by decide +kernel)).1 (.inr ?_),
    by decide +kernel⟩
  rw [show components slashData.chars = [dataStr.chars] by decide +kernel]
  exact .inr (.inr fun hloose => absurd hloose (by decide +kernel))

end Ko6.Fs
