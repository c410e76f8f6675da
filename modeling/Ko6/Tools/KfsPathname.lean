import Ko6.Fs.KfsNames

set_option autoImplicit false

/-!
# Tools: the path names of kfstools

`kfs_absolute_pathname` builds the name of a dentry from its last component up, in one
buffer.  It copies each component and its NUL in front of the path, and then moves the
component, but not what is behind it, one to the right for the slash: the NUL goes, and
with it the slash that stood there.  So there is only one slash, in front, and
`roundTrip_iff` says for which dentries that is right.
-/

namespace Ko6.Tools

open Ko6.Lib Ko6.Common Ko6.Fs

/-! ## Model -/

/-- The string at the beginning of `max` bytes. -/
def cstrIn (max : Nat) (b : Nat → BitVec 8) : CStr where
  chars := ((List.range max).map b).takeWhile (· ≠ 0)
  nonzero := fun c hc => by simpa using List.mem_takeWhile_imp hc

/-- The size of the buffer of `kfs_absolute_pathname`. -/
def pathSize : Nat := 256

/-- `memmove (path + dest, path, n)`. -/
def memmove (path : Nat → BitVec 8) (dest n i : Nat) : BitVec 8 :=
  if dest ≤ i ∧ i < dest + n then path (i - dest) else path i

/-- `strncpy (path, name, n)`. -/
def strncpy (path : Nat → BitVec 8) (name : CStr) (n i : Nat) : BitVec 8 :=
  if i < n then name.byte i else path i

/-- `kfs_name`: the string may run on into the next dentries. -/
def kfsNameOf (s : Kfs) (dentry : Nat) : CStr :=
  cstrIn (32 * (kfsMaxDentry - dentry) - 4) (kfsName s dentry)

/-- A turn of the loop of `kfs_absolute_pathname`. -/
def addName (path : Nat → BitVec 8) (currentName : CStr) : Nat → BitVec 8 :=
  let currentNameLength := strlen currentName
  let path := memmove path currentNameLength (strlen (cstrIn pathSize path))
  let path := strncpy path currentName (currentNameLength + 1)
  let path := memmove path 1 (strlen (cstrIn pathSize path))
  Function.update path 0 slash

/-- The loop of `kfs_absolute_pathname`, with the turns that are left. -/
def pathnameLoop (s : Kfs) : Nat → Nat → (Nat → BitVec 8) → Option (Nat → BitVec 8)
  | n, currentDentry, path =>
    if currentDentry = 0 then some path
    else
      match n with
      | 0 => none
      | n + 1 => pathnameLoop s n (s.dentry currentDentry).root (addName path (kfsNameOf s currentDentry))

/-- `kfs_absolute_pathname`: the buffer, and `none` for `NULL`. -/
def kfsAbsolutePathname (s : Kfs) (dentry : Nat) : Option (Nat → BitVec 8) :=
  let path : Nat → BitVec 8 := fun _ => 0
  if dentry = 0 then some (Function.update path 0 slash)
  else
    (pathnameLoop s 8 dentry path).map fun path =>
      Function.update path (strlen (cstrIn pathSize path)) 0

/-- The string `/n1/n2/.../nk`, and `/` without components. -/
def pathString (ws : List (List (BitVec 8))) : List (BitVec 8) :=
  if ws = [] then [slash] else (ws.map (slash :: ·)).flatten

/-- The path name of the dentry is made of its components, and `kfs_open` finds the dentry
with it and makes none. -/
def RoundTrip (s : Kfs) (d : Nat) (ws : List (List (BitVec 8))) : Prop :=
  ∃ path, kfsAbsolutePathname s d = some path ∧ (cstrIn pathSize path).chars = pathString ws ∧
    ∃ s', kfsOpen s (cstrIn pathSize path) = some (some d, s') ∧ SameDentries s s'

/-! ## The buffer -/

section
variable {s : Kfs} {d : Nat} {w : CStr} {b : Nat → BitVec 8} {max : Nat}

/-- The bytes of a string that ends in time. -/
theorem cstrIn_eq (h : ∀ i, i ≤ strlen w → b i = w.byte i) (hlt : strlen w < max) :
    cstrIn max b = w := by
  obtain ⟨m, rfl⟩ : ∃ m, max = strlen w + (m + 1) := ⟨max - strlen w - 1, by omega⟩
  have hhead : (List.range (strlen w)).map b = w.chars := by
    refine List.ext_getElem (by simp [strlen]) fun i hi hi' => ?_
    rw [List.getElem_map, List.getElem_range, h i (Nat.le_of_lt hi'), w.byte_of_lt hi']
  have hend : b (strlen w + 0) = 0 := by
    rw [Nat.add_zero, h _ (Nat.le_refl _)]
    exact (w.byte_eq_zero_iff _).mpr (Nat.le_refl _)
  have hchars : (cstrIn (strlen w + (m + 1)) b).chars = w.chars := by
    unfold cstrIn
    simp only
    rw [List.range_add, List.map_append, hhead, List.map_map, List.range_succ_eq_map, List.map_cons,
      List.takeWhile_append_of_pos fun c hc => by simpa using w.nonzero c hc,
      List.takeWhile_cons_of_neg (by simpa using hend), List.append_nil]
  obtain ⟨chars, hnz⟩ := w
  generalize cstrIn _ b = v at hchars
  obtain ⟨chars', hnz'⟩ := v
  obtain rfl : chars' = chars := hchars
  rfl

theorem kfsNameOf_eq (hd : d < kfsMaxDentry) (hw : strlen w < kfsMaxName) (h : HasName s d w) :
    kfsNameOf s d = w := by
  have hmax : kfsMaxName = 28 := rfl
  exact cstrIn_eq h (by omega)

/-- A turn of the loop puts a slash and the name in front of all but the slash of the path. -/
theorem addName_eq {path : CStr} (new : CStr) (hnew : new.chars = slash :: (w.chars ++ path.chars.tail))
    (hlen : strlen path + strlen w < pathSize) : addName path.byte w = new.byte := by
  have hpath : strlen (cstrIn pathSize path.byte) = strlen path := by
    rw [cstrIn_eq (w := path) (fun _ _ => rfl) (by omega)]
  have hmoved : strlen (cstrIn pathSize
      (strncpy (memmove path.byte (strlen w) (strlen path)) w (strlen w + 1))) = strlen w := by
    rw [cstrIn_eq (w := w) (fun i hi => ?_) (by omega)]
    exact if_pos (by omega)
  funext i
  rw [addName, hpath, hmoved, CStr.byte, hnew]
  cases i with
  | zero => rfl
  | succ i =>
    rw [Function.update_of_ne (by omega), List.getD_cons_succ, memmove, Nat.add_sub_cancel]
    by_cases hi : i < strlen w
    · rw [if_pos (by omega), strncpy, if_pos (by omega), CStr.byte]
      exact (List.getD_append _ _ _ _ hi).symm
    · rw [if_neg (by omega), strncpy, if_neg (by omega), memmove,
        List.getD_append_right _ _ _ _ (Nat.le_of_not_lt hi)]
      have htail : ∀ k, path.chars.tail.getD k 0 = path.byte (k + 1) := by
        intro k
        rw [CStr.byte]
        cases path.chars <;> rfl
      rw [htail]
      by_cases hin : i + 1 < strlen w + strlen path
      · rw [if_pos (by omega)]
        congr 1
        unfold strlen at *
        omega
      · -- behind the path there are zeros
        rw [if_neg (by omega), (path.byte_eq_zero_iff _).mpr (by unfold strlen at *; omega),
          (path.byte_eq_zero_iff _).mpr (by unfold strlen at *; omega)]

end

/-! ## The string -/

section
variable {s s' : Kfs} {d r x : Nat} {w name next : CStr} {ws : List (List (BitVec 8))}

/-- The loop puts the components in front of the path, with one slash. -/
theorem pathnameLoop_names (h : DirTree s) (hd : NamesTo s d ws) (n : Nat) (path : CStr)
    (hn : ws.length ≤ n) (hlen : strlen path + 28 * ws.length < pathSize) :
    ∃ new : CStr, pathnameLoop s n d path.byte = some new.byte ∧ strlen new < pathSize ∧
      new.chars = if ws = [] then path.chars else slash :: (ws.flatten ++ path.chars.tail) := by
  induction hd generalizing n path with
  | top => exact ⟨path, by rw [pathnameLoop.eq_def]; exact if_pos rfl, hlen, rfl⟩
  | @leaf d x w ws hd hlisted hw ih =>
    obtain ⟨hall, hx0, hroot⟩ := h.isLeaf hd.inTree hlisted
    have hlt := h.strlen_lt (.leaf hd.inTree hlisted) hx0 hw
    have hmax : kfsMaxName = 28 := rfl
    rw [List.length_append, List.length_singleton] at hn hlen
    obtain ⟨n, rfl⟩ : ∃ m, n = m + 1 := ⟨n - 1, by omega⟩
    let front : CStr := ⟨slash :: (w.chars ++ path.chars.tail), by
      intro c hc
      rcases List.mem_cons.mp hc with rfl | hc
      · decide
      · rcases List.mem_append.mp hc with hc | hc
        · exact w.nonzero c hc
        · exact path.nonzero c (List.mem_of_mem_tail hc)⟩
    have hfront : strlen front ≤ strlen path + 28 := by
      unfold strlen at *
      simp only [front, List.length_cons, List.length_append, List.length_tail]
      omega
    obtain ⟨new, hloop, hsize, hnew⟩ := ih n front (by omega) (by omega)
    refine ⟨new, ?_, hsize, ?_⟩
    · rw [pathnameLoop.eq_def]
      simp only [if_neg hx0, hroot]
      rw [kfsNameOf_eq hall.1 hlt hw, addName_eq front rfl (by omega), hloop]
    · rw [if_neg (by simp), hnew, List.flatten_append, List.flatten_singleton]
      split
      · next hws => rw [hws, List.flatten_nil, List.nil_append]
      · rw [List.append_assoc]
        rfl

/-- The name that `kfs_absolute_pathname` makes: one slash, and then all components. -/
theorem kfsAbsolutePathname_eq (h : DirTree s) (hd : NamesTo s d ws) (hdepth : ws.length ≤ 8) :
    ∃ path : CStr, kfsAbsolutePathname s d = some path.byte ∧ path.chars = slash :: ws.flatten ∧
      strlen path < pathSize := by
  have hsize : pathSize = 256 := rfl
  by_cases hd0 : d = 0
  · subst hd0
    obtain rfl := h.names_unique hd .top
    refine ⟨⟨[slash], by decide⟩, ?_, rfl, by decide⟩
    rw [kfsAbsolutePathname, if_pos rfl]
    congr 1
    funext i
    cases i with
    | zero => rfl
    | succ i => exact Function.update_of_ne (by omega) _ _
  · have hne : ws ≠ [] := by
      rintro rfl
      exact hd0 (h.dentry_unique hd .top)
    obtain ⟨path, hloop, hlt, hchars⟩ := pathnameLoop_names h hd 8 ⟨[], by simp⟩ hdepth
      (by rw [show strlen ⟨[], _⟩ = 0 from rfl]; omega)
    rw [if_neg hne, List.tail_nil, List.append_nil] at hchars
    refine ⟨path, ?_, hchars, hlt⟩
    have hzero : (fun _ => 0 : Nat → BitVec 8) = (⟨[], by simp⟩ : CStr).byte := rfl
    have hend : path.byte (strlen path) = 0 := (path.byte_eq_zero_iff _).mpr (Nat.le_refl _)
    rw [kfsAbsolutePathname, if_neg hd0, hzero, hloop, Option.map_some,
      cstrIn_eq (w := path) (fun _ _ => rfl) hlt]
    exact congrArg some (Function.update_eq_self_iff.mpr hend.symm)

theorem length_flatten_slash (ws : List (List (BitVec 8))) :
    (ws.map (slash :: ·)).flatten.length = ws.flatten.length + ws.length := by
  induction ws with
  | nil => rfl
  | cons w ws ih =>
    rw [List.map_cons, List.flatten_cons, List.flatten_cons, List.length_append, ih,
      List.length_append, List.length_cons, List.length_cons]
    omega

/-- Only one slash: the right string for one component. -/
theorem flatten_eq_pathString_iff :
    slash :: ws.flatten = pathString ws ↔ ws.length ≤ 1 := by
  unfold pathString
  constructor
  · intro heq
    split at heq
    · next hws =>
      rw [hws]
      exact Nat.zero_le 1
    · have hlen := congrArg List.length heq
      rw [length_flatten_slash, List.length_cons] at hlen
      omega
  · intro hle
    match ws, hle with
    | [], _ => rfl
    | [w], _ => simp

end

/-! ## The dentry -/

section
variable {s s' : Kfs} {d r : Nat} {w next path : CStr} {ws : List (List (BitVec 8))}

/-- A dentry that `kfs_open` comes to: `/`, or one whose name has no slash. -/
def Plain (s : Kfs) (d : Nat) : Prop := d = 0 ∨ ∃ w, HasName s d w ∧ slash ∉ w.chars

theorem kfsOpenLoop_plain (fuel : Nat) (h : NameInv s) (hd : InTree s d) (hplain : Plain s d)
    (hshort : ShortNames 27 next) (hslash : next.byte 0 ≠ slash)
    (hopen : kfsOpenLoop fuel next d s = some (r, s')) : Plain s' r := by
  induction fuel generalizing s d next with
  | zero =>
    rw [kfsOpenLoop] at hopen
    cases hopen
    exact hplain
  | succ fuel ih =>
    by_cases hnil : next.chars = []
    · rw [kfsOpenLoop, kfsGetname_nil hnil] at hopen
      cases hopen
      exact hplain
    · obtain ⟨name, rest, hget, -, hw, hlen, hshort', hslash', -, hnone⟩ :=
        kfsGetname_short hshort hnil hslash
      obtain ⟨leaf, s₁, hopenat, hinv₁, hleaf⟩ := h.openat hd hw
      rw [kfsOpenLoop_next hget hlen, hopenat, Option.bind_some] at hopen
      refine ih hinv₁ hleaf ?_ hshort' hslash' hopen
      rcases h.openat_cases hd hw with ⟨x, heq, -, hname⟩ |
        ⟨-, leaf', s₂, heq, hhung | ⟨-, rfl, -⟩⟩
      · rw [hopenat] at heq
        cases heq
        exact .inr ⟨name, hname, hnone⟩
      · rw [hopenat] at heq
        cases heq
        exact .inr ⟨name, hhung.hasName_new hw, hnone⟩
      · rw [hopenat] at heq
        cases heq
        exact .inl rfl

/-- `kfs_open` of one name with a slash in it does not come to the dentry of that name. -/
theorem kfsOpen_slash (h : NameInv s) (hd : NamesTo s d [w.chars]) (hin : slash ∈ w.chars)
    (hpath : path.chars = slash :: w.chars) (hopen : kfsOpen s path = some (some r, s'))
    (hsame : SameDentries s s') : r ≠ d := by
  have hsnoc : NamesTo s d ([] ++ [w.chars]) := hd
  obtain ⟨top, htop, hlisted, hname⟩ := hsnoc.snoc
  have hd0 : d ≠ 0 := (h.isLeaf htop.inTree hlisted).2.1
  have hlt := h.strlen_lt hd.inTree hd0 hname
  have hmax : kfsMaxName = 28 := rfl
  have habs : path.byte 0 = slash := by
    rw [CStr.byte, hpath]
    rfl
  have hshort : ShortNames 27 path := by
    intro c hc
    rw [pathNames, hpath, tokens_cons_sep (by simp)] at hc
    have hle := (sublist_of_mem_tokens hc).length_le
    unfold strlen at hlt
    omega
  obtain ⟨next, hslash, hnames, heq⟩ := kfsOpen_absolute habs
  rw [heq] at hopen
  obtain ⟨⟨r', s₁⟩, hloop, hret⟩ := Option.map_eq_some_iff.mp hopen
  rw [Prod.mk.injEq, Option.some.injEq] at hret
  obtain ⟨rfl, rfl⟩ := hret
  rw [ShortNames, ← hnames] at hshort
  have hplain := kfsOpenLoop_plain (strlen next) h .top (.inl rfl) hshort hslash hloop
  rintro rfl
  rcases hplain with h0 | ⟨c, hc, hnone⟩
  · exact hd0 h0
  · have hden : s₁.dentry = s.dentry := hsame.1
    have hc' : HasName s r' c := by
      intro i hi
      rw [← hc i hi, kfsName, kfsName, hden]
    rw [hc'.unique hname] at hnone
    exact hnone hin

/-- The path name of a dentry of the tree comes back to it for `/` and for the names in `/`
that have no slash, and for no others. -/
theorem roundTrip_iff (h : NameInv s) (hd : NamesTo s d ws) (hne : ∀ w ∈ ws, w ≠ [])
    (hdepth : ws.length ≤ 8) : RoundTrip s d ws ↔ ws = [] ∨ ∃ w, ws = [w] ∧ slash ∉ w := by
  obtain ⟨path, hname, hchars, hlt⟩ := kfsAbsolutePathname_eq h.toDirTree hd hdepth
  have hstr : cstrIn pathSize path.byte = path := cstrIn_eq (fun _ _ => rfl) hlt
  have habs : path.byte 0 = slash := by
    rw [CStr.byte, hchars]
    rfl
  have hopens : pathNames path = ws → ShortNames 27 path →
      ∃ s', kfsOpen s path = some (some d, s') ∧ SameDentries s s' := by
    intro hnames hshort
    obtain ⟨s', hopen, hsame⟩ := h.open_found habs hshort (by rwa [hnames])
    exact ⟨s', hopen, hsame.dentry, hsame.dentryMap⟩
  constructor
  · rintro ⟨b, hb, hstring, s', hopen, hsame⟩
    rw [hname, Option.some.injEq] at hb
    rw [← hb, hstr] at hstring hopen
    rw [hchars] at hstring
    rcases Nat.le_one_iff_eq_zero_or_eq_one.mp (flatten_eq_pathString_iff.mp hstring) with h0 | h1
    · exact .inl (List.length_eq_zero_iff.mp h0)
    · obtain ⟨w, rfl⟩ := List.length_eq_one_iff.mp h1
      obtain ⟨w, rfl, -⟩ := h.component hd w List.mem_cons_self
      rw [List.flatten_singleton] at hchars
      exact .inr ⟨w.chars, rfl, fun hin => kfsOpen_slash h hd hin hchars hopen hsame rfl⟩
  · intro hright
    refine ⟨path.byte, hname, ?_, ?_⟩
    · rw [hstr, hchars, flatten_eq_pathString_iff]
      rcases hright with rfl | ⟨w, rfl, -⟩ <;> simp
    · rw [hstr]
      rcases hright with rfl | ⟨w, rfl, hnone⟩
      · have hnames : pathNames path = [] := by
          rw [pathNames, hchars, tokens_cons_sep (by simp)]
          exact tokens_nil
        exact hopens hnames fun c hc => absurd (hnames ▸ hc) List.not_mem_nil
      · have hnames : pathNames path = [w] := by
          rw [pathNames, hchars, tokens_cons_sep (by simp), List.flatten_singleton]
          refine tokens_word (hne w List.mem_cons_self) fun c hc => ?_
          by_contra hcs
          have : c = slash := by simpa using hcs
          exact hnone (this ▸ hc)
        refine hopens hnames fun c hc => ?_
        rw [hnames, List.mem_singleton] at hc
        obtain ⟨v, rfl, hv⟩ := h.component hd w List.mem_cons_self
        rw [hc]
        exact Nat.le_of_lt_succ hv

/-- The name `f` in `/`. -/
theorem roundTrip_slashF : ∃ s, kfsOp kfsStart (.open_ slashF) = some s ∧
    RoundTrip s 1 [[102]] := by
  obtain ⟨s, hop, hinv, hnames⟩ := kfsOpen_start slashF [[102]] 1 rfl
    (by decide +kernel) (by decide) (by unfold Enough; decide +kernel) (by decide +kernel)
  exact ⟨s, hop, (roundTrip_iff hinv hnames (by simp) (by decide)).mpr (.inr ⟨[102], rfl, by decide⟩)⟩

theorem slashAB_nonzero : ∀ c ∈ [slash, 97, slash, 98], c ≠ 0 := by decide

/-- `/a/b`. -/
def slashAB : CStr := ⟨[slash, 97, slash, 98], slashAB_nonzero⟩

/-- The name of `/a/b` comes out as `/ab`. -/
theorem kfsAbsolutePathname_two : ∃ s, kfsOp kfsStart (.open_ slashAB) = some s ∧ NameInv s ∧
    NamesTo s 2 [[97], [98]] ∧ ¬ RoundTrip s 2 [[97], [98]] ∧
    ∃ path, kfsAbsolutePathname s 2 = some path ∧
      (cstrIn pathSize path).chars = [slash, 97, 98] := by
  obtain ⟨s, hop, hinv, hnames⟩ := kfsOpen_start slashAB [[97], [98]] 2 rfl
    (by decide +kernel) (by decide) (by unfold Enough; decide +kernel) (by decide +kernel)
  obtain ⟨path, hname, hchars, hlt⟩ :=
    kfsAbsolutePathname_eq hinv.toDirTree hnames (by decide)
  have hstr : cstrIn pathSize path.byte = path := cstrIn_eq (fun _ _ => rfl) hlt
  refine ⟨s, hop, hinv, hnames, ?_, path.byte, hname, by rw [hstr, hchars]; rfl⟩
  rintro ⟨b, hb, hstring, -⟩
  rw [hname, Option.some.injEq] at hb
  rw [← hb, hstr, hchars] at hstring
  exact absurd hstring (by decide)

end

end Ko6.Tools
