import Ko6.Lib.Chain
import Ko6.Uapp.Stmt

set_option autoImplicit false

/-!
# Uapp: lists of statements

The actions of `kshell_yacc.y` for lists of statements, with `if` and `while` to any depth,
and `kshell_stmt_execute`.  The last statement of the list that is read is in the one global
variable `chkpnt`, into which every list inside writes its own.  An `if` does not restore
it, and a `while` puts itself there: the `if` or `while` that follows another statement of
its list is not linked to that statement, but to the last one inside it, or to itself.

What a simple statement does is a parameter, and so is the state in which it does it.
-/

namespace Ko6.Uapp

open Ko6.Lib

/-! ## The grammar -/

/-- A simple statement, with the address of its words or of its expression, which earlier
actions have built. -/
inductive Simple where
  | words (t : SimpleType) (w : Nat)
  | expr (e : Nat)
  deriving DecidableEq

/-- The type and the union of its node. -/
def Simple.val : Simple → StmtVal
  | words t w => .simple t (some w)
  | expr e => .expr (some e)

mutual

/-- A `stmt`. -/
inductive Source where
  | simple (x : Simple)
  | ifThen (cond tCase : SourceList)
  | ifThenElse (cond tCase fCase : SourceList)
  | whileDo (cond execute : SourceList)

/-- A `top_level_list`. -/
inductive SourceList where
  | one (x : Source)
  | snoc (l : SourceList) (x : Source)

end

/-- The action of `simple_stmt`. -/
def Simple.reduce (x : Simple) (s : Parser) : Nat × Parser :=
  let (new, s) := stmtCreate s
  match x with
  | words t w => (new, (stmtSetSimple (some new) (some w) t s).2)
  | expr e => (new, (stmtSetExpr (some new) (some e) s).2)

/-- The actions of `if_bloc`. -/
def reduceIf (cond tCase : Nat) (fCase : Ptr) (s : Parser) : Nat × Parser :=
  let (new, s) := stmtCreate s
  (new, (stmtSetIfStmt (some new) (some cond) (some tCase) fCase s).2)

/-- The action of `while_bloc`. -/
def reduceWhile (cond execute : Nat) (s : Parser) : Nat × Parser :=
  let (new, s) := stmtCreate s
  let s := (stmtSetWhileStmt (some new) (some cond) (some execute) s).2
  (new, { s with chkpnt := some new })

/-- The first action of `top_level_list`. -/
def reduceSnoc (l x : Nat) (s : Parser) : Nat × Parser :=
  let s := (stmtSetNext s.chkpnt (some x) s).2
  (l, { s with chkpnt := some x })

/-- The second action of `top_level_list`. -/
def reduceOne (x : Nat) (s : Parser) : Nat × Parser := (x, { s with chkpnt := some x })

mutual

/-- The actions for a `stmt`, those of its parts first and from the left to the right. -/
def Source.reduce : Source → Parser → Nat × Parser
  | .simple x, s => x.reduce s
  | .ifThen cond tCase, s =>
    let (cond, s) := cond.reduce s
    let (tCase, s) := tCase.reduce s
    reduceIf cond tCase none s
  | .ifThenElse cond tCase fCase, s =>
    let (cond, s) := cond.reduce s
    let (tCase, s) := tCase.reduce s
    let (fCase, s) := fCase.reduce s
    reduceIf cond tCase (some fCase) s
  | .whileDo cond execute, s =>
    let (cond, s) := cond.reduce s
    let (execute, s) := execute.reduce s
    reduceWhile cond execute s

/-- The actions for a `top_level_list`. -/
def SourceList.reduce : SourceList → Parser → Nat × Parser
  | .one x, s =>
    let (x, s) := x.reduce s
    reduceOne x s
  | .snoc l x, s =>
    let (l, s) := l.reduce s
    let (x, s) := x.reduce s
    reduceSnoc l x s

end

/-! ## Execution -/

/-- What simple statements do in a state: `kshell_built_in_execute`, `kshell_expr_eval` and the
assignment of a variable. -/
structure Machine (σ : Type) where
  builtIn : Nat → σ → BitVec 32 × σ
  exprEval : Nat → σ → BitVec 32 × σ
  envAssign : Nat → σ → σ

section
variable {σ : Type} (m : Machine σ)

/-- The loop of `kshell_while_stmt_execute`, at most so many turns. -/
def whileExecute (exec : Ptr → σ → Option (BitVec 32 × σ)) (cond execute : Ptr) :
    Nat → BitVec 32 → σ → Option (BitVec 32 × σ)
  | 0, _, _ => none
  | turns + 1, retval, st => do
    let (b, st) ← exec cond st
    if b ≠ 0 then
      let (retval, st) ← exec execute st
      whileExecute exec cond execute turns retval st
    else some (retval, st)

/-- `kshell_if_stmt_execute`. -/
def ifExecute (exec : Ptr → σ → Option (BitVec 32 × σ)) (cond branch0 branch1 : Ptr) (st : σ) :
    Option (BitVec 32 × σ) := do
  let (b, st) ← exec cond st
  exec (if b ≠ 0 then branch1 else branch0) st

/-- The `switch` of `kshell_stmt_execute`, with `exec` for the recursive calls. -/
def stmtCase (heap : Heap) (exec : Ptr → σ → Option (BitVec 32 × σ)) (turns : Nat)
    (retval : BitVec 32) (st : σ) : StmtVal → Option (BitVec 32 × σ)
  | .whileStmt w =>
    match w.bind heap with
    | some (.whileStmt cond execute) => whileExecute exec cond execute turns 0 st
    | _ => none
  | .ifStmt i =>
    match i.bind heap with
    | some (.ifStmt cond branch0 branch1) => ifExecute exec cond branch0 branch1 st
    | _ => none
  | .simple .builtIn (some w) => some (m.builtIn w st)
  | .simple .envAssign (some w) => some (retval, m.envAssign w st)
  | .simple .exec _ => some (retval, st)
  | .expr (some e) => some (m.exprEval e st)
  | .simple _ none => none
  | .expr none => none
  | .pipeline => some (retval, st)
  | .null => some (retval, st)

/-- The loop of `kshell_stmt_execute`, in at most `fuel` turns and calls inside each other. -/
def stmtLoop (heap : Heap) : Nat → Ptr → BitVec 32 → σ → Option (BitVec 32 × σ)
  | 0, _, _, _ => none
  | _ + 1, none, retval, st => some (retval, st)
  | fuel + 1, some curr, retval, st =>
    match heap curr with
    | some (.stmt val nxt) => do
      let (retval, st) ← stmtCase m heap (fun p st => stmtLoop heap fuel p 0 st) fuel retval st val
      stmtLoop heap fuel nxt retval st
    | _ => none

/-- `kshell_stmt_execute`. -/
def kshellStmtExecute (heap : Heap) (fuel : Nat) (stmt : Ptr) (st : σ) : Option (BitVec 32 × σ) :=
  stmtLoop m heap fuel stmt 0 st

end

/-! ## Lists in source order -/

/-- `p->nxt`. -/
def nxtOf (heap : Heap) (p : Ptr) : Ptr :=
  match p.bind heap with
  | some (.stmt _ nxt) => nxt
  | _ => none

/-- The chain from `p` on is that of the nodes `as`, without a cycle. -/
def IsList (heap : Heap) (p : Nat) (as : List Nat) : Prop :=
  Chain none (nxtOf heap) (some p) (as.map some) ∧ as.Nodup

mutual

/-- The statement is at `a`, with its lists. -/
def Source.At (heap : Heap) : Source → Nat → Prop
  | .simple x, a => ∃ nxt, heap a = some (.stmt x.val nxt)
  | .ifThen cond tCase, a => ∃ nxt i c t, heap a = some (.stmt (.ifStmt (some i)) nxt) ∧
      heap i = some (.ifStmt (some c) none (some t)) ∧
      (∃ as, IsList heap c as ∧ cond.Stmts heap as) ∧ ∃ as, IsList heap t as ∧ tCase.Stmts heap as
  | .ifThenElse cond tCase fCase, a => ∃ nxt i c t f, heap a = some (.stmt (.ifStmt (some i)) nxt) ∧
      heap i = some (.ifStmt (some c) (some f) (some t)) ∧
      (∃ as, IsList heap c as ∧ cond.Stmts heap as) ∧
      (∃ as, IsList heap t as ∧ tCase.Stmts heap as) ∧ ∃ as, IsList heap f as ∧ fCase.Stmts heap as
  | .whileDo cond execute, a => ∃ nxt w c e, heap a = some (.stmt (.whileStmt (some w)) nxt) ∧
      heap w = some (.whileStmt (some c) (some e)) ∧
      (∃ as, IsList heap c as ∧ cond.Stmts heap as) ∧ ∃ as, IsList heap e as ∧ execute.Stmts heap as

/-- The statements of the list are at the addresses `as`, in this order. -/
def SourceList.Stmts (heap : Heap) : SourceList → List Nat → Prop
  | .one x, as => ∃ a, as = [a] ∧ x.At heap a
  | .snoc l x, as => ∃ bs a, as = bs ++ [a] ∧ l.Stmts heap bs ∧ x.At heap a

end

/-- The chain from `p` on has exactly the statements of the list, in source order, and so have
the chains of the lists inside. -/
def SourceList.At (heap : Heap) (l : SourceList) (p : Nat) : Prop :=
  ∃ as, IsList heap p as ∧ l.Stmts heap as

/-- The statement is a simple one. -/
def Source.IsSimple : Source → Prop
  | .simple _ => True
  | _ => False

mutual

/-- In no list is an `if` or a `while` behind another statement. -/
def Source.Flat : Source → Prop
  | .simple _ => True
  | .ifThen cond tCase => cond.Flat ∧ tCase.Flat
  | .ifThenElse cond tCase fCase => cond.Flat ∧ tCase.Flat ∧ fCase.Flat
  | .whileDo cond execute => cond.Flat ∧ execute.Flat

def SourceList.Flat : SourceList → Prop
  | .one x => x.Flat
  | .snoc l x => l.Flat ∧ x.IsSimple

end

mutual

/-- There is no `while`. -/
def Source.NoWhile : Source → Prop
  | .simple _ => True
  | .ifThen cond tCase => cond.NoWhile ∧ tCase.NoWhile
  | .ifThenElse cond tCase fCase => cond.NoWhile ∧ tCase.NoWhile ∧ fCase.NoWhile
  | .whileDo _ _ => False

def SourceList.NoWhile : SourceList → Prop
  | .one x => x.NoWhile
  | .snoc l x => l.NoWhile ∧ x.NoWhile

end

mutual

/-- What a statement without `while` does, with the value and the state before it. -/
def Source.run {σ : Type} (m : Machine σ) : Source → BitVec 32 → σ → BitVec 32 × σ
  | .simple (.words .builtIn w), _, st => m.builtIn w st
  | .simple (.words .envAssign w), retval, st => (retval, m.envAssign w st)
  | .simple (.words .exec _), retval, st => (retval, st)
  | .simple (.expr e), _, st => m.exprEval e st
  | .ifThen cond tCase, _, st =>
    let (b, st) := cond.run m st
    if b ≠ 0 then tCase.run m st else (0, st)
  | .ifThenElse cond tCase fCase, _, st =>
    let (b, st) := cond.run m st
    if b ≠ 0 then tCase.run m st else fCase.run m st
  | .whileDo _ _, retval, st => (retval, st)

/-- The statements of a list without `while`, each one once and in source order. -/
def SourceList.run {σ : Type} (m : Machine σ) : SourceList → σ → BitVec 32 × σ
  | .one x, st => x.run m 0 st
  | .snoc l x, st =>
    let (retval, st) := l.run m st
    x.run m retval st

end

/-! ## What the actions change -/

/-- A new statement with a second new object behind it. -/
theorem block_spec (s : Parser) (o : Obj) (f : Obj → Obj) (val : StmtVal) :
    let s' := (((s.malloc (.stmt .null none)).2.malloc o).2.modify (s.next + 1) f).modify s.next
      (Obj.setVal val)
    Grows s s' ∧ s'.next = s.next + 2 ∧ s'.chkpnt = s.chkpnt ∧
      s'.heap s.next = some (.stmt val none) ∧ s'.heap (s.next + 1) = some (f o) := by
  intro s'
  have hgrows := (grows_malloc s (.stmt .null none)).trans
    (grows_malloc (s.malloc (.stmt .null none)).2 o)
  refine ⟨(hgrows.modify (Nat.le_succ _) f).modify (Nat.le_refl _) _, rfl, rfl, ?_, ?_⟩
  · rw [modify_heap, if_pos rfl, modify_heap, if_neg (Nat.ne_of_lt (Nat.lt_succ_self _)),
      malloc_heap, malloc_next, if_neg (Nat.ne_of_lt (Nat.lt_succ_self _)), malloc_heap, if_pos rfl]
    rfl
  · rw [modify_heap, if_neg (Nat.succ_ne_self _), modify_heap, if_pos rfl, malloc_heap,
      malloc_next, if_pos rfl]
    rfl

/-- What the actions for a statement do: it is new, as is all that they change, and they leave
`chkpnt` alone or put something new there. -/
structure Reduced (simple : Prop) (s : Parser) (r : Nat × Parser) : Prop where
  grows : Grows s r.2
  le : s.next ≤ r.1
  lt : r.1 < r.2.next
  node : ∃ val, r.2.heap r.1 = some (.stmt val none)
  kept : simple → r.2.chkpnt = s.chkpnt
  moved : ¬ simple → ∃ m, r.2.chkpnt = some m ∧ s.next ≤ m ∧ m < r.2.next

/-- What the actions for a list do. -/
structure ListReduced (s s' : Parser) : Prop where
  grows : Grows s s'
  chkpnt : ∃ m, s'.chkpnt = some m ∧ s.next ≤ m ∧ m < s'.next

section
variable {s s₁ s₂ : Parser}

theorem Simple.reduce_eq (x : Simple) (s : Parser) : x.reduce s =
    (s.next, (s.malloc (.stmt .null none)).2.modify s.next (Obj.setVal x.val)) := by
  cases x with
  | words t w => rfl
  | expr e => rfl

theorem reduceIf_eq (cond tCase : Nat) (fCase : Ptr) (s : Parser) : reduceIf cond tCase fCase s =
    (s.next, (((s.malloc (.stmt .null none)).2.malloc (.ifStmt none none none)).2.modify (s.next + 1)
      (Obj.setIf (some cond) fCase (some tCase))).modify s.next
        (Obj.setVal (.ifStmt (some (s.next + 1))))) := rfl

theorem reduceWhile_eq (cond execute : Nat) (s : Parser) : reduceWhile cond execute s =
    (s.next, { (((s.malloc (.stmt .null none)).2.malloc (.whileStmt none none)).2.modify (s.next + 1)
      (Obj.setWhile (some cond) (some execute))).modify s.next
        (Obj.setVal (.whileStmt (some (s.next + 1)))) with chkpnt := some s.next }) := rfl

theorem Simple.reduce_spec (x : Simple) (s : Parser) : Reduced True s (x.reduce s) := by
  rw [x.reduce_eq]
  refine ⟨(grows_malloc s _).modify (Nat.le_refl _) _, Nat.le_refl _, Nat.lt_succ_self _, ⟨x.val, ?_⟩,
    fun _ => rfl, fun h => absurd trivial h⟩
  rw [modify_heap, if_pos rfl, malloc_heap, if_pos rfl]
  rfl

theorem reduceIf_spec (h : ListReduced s s₁) (cond tCase : Nat) (fCase : Ptr) :
    Reduced False s (reduceIf cond tCase fCase s₁) := by
  obtain ⟨hgrows, hnext, hchkpnt, hnode, -⟩ := block_spec s₁ (.ifStmt none none none)
    (Obj.setIf (some cond) fCase (some tCase)) (.ifStmt (some (s₁.next + 1)))
  obtain ⟨m, hm, hle, hlt⟩ := h.chkpnt
  rw [reduceIf_eq]
  exact ⟨h.grows.trans hgrows, h.grows.next_le, hnext ▸ Nat.lt_succ_of_lt (Nat.lt_succ_self _),
    ⟨_, hnode⟩, False.elim, fun _ => ⟨m, hchkpnt.trans hm, hle, Nat.lt_of_lt_of_le hlt hgrows.next_le⟩⟩

theorem reduceWhile_spec (h : ListReduced s s₁) (cond execute : Nat) :
    Reduced False s (reduceWhile cond execute s₁) := by
  obtain ⟨hgrows, hnext, -, hnode, -⟩ := block_spec s₁ (.whileStmt none none)
    (Obj.setWhile (some cond) (some execute)) (.whileStmt (some (s₁.next + 1)))
  have hlt : s₁.next < s₁.next + 2 := Nat.lt_succ_of_lt (Nat.lt_succ_self _)
  rw [reduceWhile_eq]
  exact ⟨h.grows.trans ⟨hgrows.next_le, hgrows.old⟩, h.grows.next_le, hlt, ⟨_, hnode⟩, False.elim,
    fun _ => ⟨s₁.next, rfl, h.grows.next_le, hlt⟩⟩

theorem ListReduced.trans (h : ListReduced s s₁) (h' : ListReduced s₁ s₂) : ListReduced s s₂ := by
  obtain ⟨m, hm, hle, hlt⟩ := h'.chkpnt
  exact ⟨h.grows.trans h'.grows, m, hm, Nat.le_trans h.grows.next_le hle, hlt⟩

/-- A list of one statement. -/
theorem ListReduced.one {simple : Prop} {r : Nat × Parser} (h : Reduced simple s r) :
    ListReduced s (reduceOne r.1 r.2).2 :=
  ⟨⟨h.grows.next_le, h.grows.old⟩, r.1, rfl, h.le, h.lt⟩

/-- The last statement so far, to which a statement is linked, is not older than the list. -/
theorem chkpnt_of_reduced {simple : Prop} {r : Nat × Parser} (h : ListReduced s s₁)
    (hx : Reduced simple s₁ r) : ∃ m, r.2.chkpnt = some m ∧ s.next ≤ m ∧ m < r.2.next := by
  by_cases hsimple : simple
  · obtain ⟨m, hm, hle, hlt⟩ := h.chkpnt
    exact ⟨m, (hx.kept hsimple).trans hm, hle, Nat.lt_of_lt_of_le hlt hx.grows.next_le⟩
  · obtain ⟨m, hm, hle, hlt⟩ := hx.moved hsimple
    exact ⟨m, hm, Nat.le_trans h.grows.next_le hle, hlt⟩

theorem reduceSnoc_eq {p x m : Nat} (hm : s.chkpnt = some m) : reduceSnoc p x s =
    (p, { s.modify m (Obj.setNxt (some x)) with chkpnt := some x }) := by
  rw [reduceSnoc, hm]
  rfl

theorem ListReduced.snoc {simple : Prop} {r : Nat × Parser} (h : ListReduced s s₁)
    (hx : Reduced simple s₁ r) (p : Nat) : ListReduced s (reduceSnoc p r.1 r.2).2 := by
  obtain ⟨m, hm, hle, -⟩ := chkpnt_of_reduced h hx
  have hgrows := (h.grows.trans hx.grows).modify hle (Obj.setNxt (some r.1))
  rw [reduceSnoc_eq hm]
  exact ⟨⟨hgrows.next_le, hgrows.old⟩, r.1, rfl, Nat.le_trans h.grows.next_le hx.le, hx.lt⟩

end

mutual

theorem Source.reduce_spec : ∀ (x : Source) (s : Parser), Reduced x.IsSimple s (x.reduce s)
  | .simple x, s => x.reduce_spec s
  | .ifThen cond tCase, s => by
    have hcond := cond.reduce_spec s
    exact reduceIf_spec (hcond.trans (tCase.reduce_spec _)) _ _ _
  | .ifThenElse cond tCase fCase, s => by
    have hcond := cond.reduce_spec s
    have htCase := tCase.reduce_spec (cond.reduce s).2
    exact reduceIf_spec ((hcond.trans htCase).trans (fCase.reduce_spec _)) _ _ _
  | .whileDo cond execute, s => by
    have hcond := cond.reduce_spec s
    exact reduceWhile_spec (hcond.trans (execute.reduce_spec _)) _ _

theorem SourceList.reduce_spec : ∀ (l : SourceList) (s : Parser), ListReduced s (l.reduce s).2
  | .one x, s => .one (x.reduce_spec s)
  | .snoc l x, s => (l.reduce_spec s).snoc (x.reduce_spec _) _

end

/-! ## The chain of a list -/

/-- How many statements a list has. -/
def SourceList.length : SourceList → Nat
  | .one _ => 1
  | .snoc l _ => l.length + 1

/-- The statements behind the first one are simple. -/
def SourceList.Tame : SourceList → Prop
  | .one _ => True
  | .snoc l x => l.Tame ∧ x.IsSimple

/-- The addresses of its statements. -/
def SourceList.addrs : SourceList → Parser → List Nat
  | .one x, s => [(x.reduce s).1]
  | .snoc l x, s => l.addrs s ++ [(x.reduce (l.reduce s).2).1]

theorem nxtOf_stmt {heap : Heap} {a : Nat} {val : StmtVal} {nxt : Ptr}
    (h : heap a = some (.stmt val nxt)) : nxtOf heap (some a) = nxt := by
  rw [nxtOf, Option.bind_some, h]

theorem nxtOf_congr {heap heap' : Heap} {a : Nat} (h : heap' a = heap a) :
    nxtOf heap' (some a) = nxtOf heap (some a) := by
  rw [nxtOf, nxtOf, Option.bind_some, Option.bind_some, h]

/-- The links of nodes that are not changed. -/
theorem nxtOf_map_congr {heap heap' : Heap} {as : List Nat} (h : ∀ a ∈ as, heap' a = heap a) :
    ∀ p ∈ as.map some, nxtOf heap' p = nxtOf heap p := by
  intro p hp
  obtain ⟨a, ha, rfl⟩ := List.mem_map.mp hp
  exact nxtOf_congr (h a ha)

/-- The chain from the first statement on: that of all the statements, when those behind the
first one are simple, and otherwise a shorter one, which `chkpnt` is not on. -/
structure Chained (l : SourceList) (s s' : Parser) (p m : Nat) (as : List Nat) : Prop where
  chkpnt : s'.chkpnt = some m
  chain : Chain none (nxtOf s'.heap) (some p) (as.map some)
  range : ∀ a ∈ as, s.next ≤ a ∧ a < s'.next
  ends : l.Tame ∧ as = l.addrs s ∧ (∃ bs, as = bs ++ [m]) ∧
      (∃ val, s'.heap m = some (.stmt val none)) ∨
    ¬ l.Tame ∧ as.length < l.length ∧ m ∉ as

section
variable {l : SourceList} {x : Source} {s s₁ : Parser} {p m : Nat} {as : List Nat}

theorem chained_one (x : Source) (s : Parser) :
    Chained (.one x) s ((SourceList.one x).reduce s).2 ((SourceList.one x).reduce s).1
      (x.reduce s).1 [(x.reduce s).1] := by
  have h := x.reduce_spec s
  obtain ⟨val, hnode⟩ := h.node
  refine ⟨rfl, ⟨rfl, Option.some_ne_none _, nxtOf_stmt hnode⟩, fun a ha => ?_,
    .inl ⟨trivial, rfl, ⟨[], rfl⟩, val, hnode⟩⟩
  rw [List.mem_singleton.mp ha]
  exact ⟨h.le, h.lt⟩

/-- A simple statement behind the others is linked to the last one. -/
theorem Chained.snoc_simple (h : Chained l s s₁ p m as) (hs₁ : s₁ = (l.reduce s).2)
    (hp : p = (l.reduce s).1) (hx : x.IsSimple) :
    ∃ as', Chained (.snoc l x) s ((SourceList.snoc l x).reduce s).2
      ((SourceList.snoc l x).reduce s).1 (x.reduce s₁).1 as' := by
  have hred := x.reduce_spec s₁
  have hnext : s.next ≤ s₁.next := hs₁ ▸ (l.reduce_spec s).grows.next_le
  have hrange : ∀ a ∈ as, s.next ≤ a ∧ a < (x.reduce s₁).2.next := fun a ha =>
    ⟨(h.range a ha).1, Nat.lt_of_lt_of_le (h.range a ha).2 hred.grows.next_le⟩
  have hm : (x.reduce s₁).2.chkpnt = some m := (hred.kept hx).trans h.chkpnt
  have hreduce : (SourceList.snoc l x).reduce s = (p,
      { (x.reduce s₁).2.modify m (Obj.setNxt (some (x.reduce s₁).1)) with
        chkpnt := some (x.reduce s₁).1 }) := by
    rw [← reduceSnoc_eq hm, hp, hs₁]
    rfl
  rw [hreduce]
  have hold : ∀ a ∈ as, a ≠ m →
      ((x.reduce s₁).2.modify m (Obj.setNxt (some (x.reduce s₁).1))).heap a = s₁.heap a :=
    fun a ha hne => by
      rw [modify_heap, if_neg hne]
      exact hred.grows.old a (h.range a ha).2
  rcases h.ends with ⟨htame, rfl, ⟨bs, hbs⟩, val, hnode⟩ | ⟨htame, hlen, hnot⟩
  · have hmlt : m < s₁.next :=
      (h.range m (by rw [hbs]; exact List.mem_append_right _ List.mem_cons_self)).2
    have hmx : (x.reduce s₁).1 ≠ m := (Nat.ne_of_lt (Nat.lt_of_lt_of_le hmlt hred.le)).symm
    obtain ⟨valx, hnodex⟩ := hred.node
    have hnodex' : ((x.reduce s₁).2.modify m (Obj.setNxt (some (x.reduce s₁).1))).heap
        (x.reduce s₁).1 = some (.stmt valx none) := by
      rw [modify_heap, if_neg hmx, hnodex]
    have hnodem : ((x.reduce s₁).2.modify m (Obj.setNxt (some (x.reduce s₁).1))).heap m =
        some (.stmt val (some (x.reduce s₁).1)) := by
      rw [modify_heap, if_pos rfl, hred.grows.old m hmlt, hnode]
      rfl
    have hnd := h.chain.nodup
    refine ⟨l.addrs s ++ [(x.reduce s₁).1], rfl, ?_, fun a ha => ?_,
      .inl ⟨⟨htame, hx⟩, by rw [hs₁]; rfl, ⟨_, rfl⟩, valx, hnodex'⟩⟩
    · have hchain := h.chain
      rw [hbs, List.map_append, List.map_singleton] at hchain hnd
      rw [hbs, List.map_append, List.map_append, List.map_singleton, List.map_singleton]
      refine hchain.snoc (Option.some_ne_none _) (nxtOf_stmt hnodem) (nxtOf_stmt hnodex')
        (nxtOf_map_congr fun a ha => hold a (by rw [hbs]; exact List.mem_append_left _ ha) ?_)
      rintro rfl
      exact (List.nodup_append.mp hnd).2.2 _ (List.mem_map_of_mem ha) _ List.mem_cons_self rfl
    · rcases List.mem_append.mp ha with ha | ha
      · exact hrange a ha
      · rw [List.mem_singleton.mp ha]
        exact ⟨Nat.le_trans hnext hred.le, hred.lt⟩
  · refine ⟨as, rfl, ?_, hrange,
      .inr ⟨fun h => htame h.1, Nat.lt_succ_of_lt hlen, fun hmem => ?_⟩⟩
    · exact h.chain.congr (nxtOf_map_congr fun a ha => hold a ha fun heq => hnot (heq ▸ ha))
    · exact absurd (h.range _ hmem).2 (Nat.not_lt.mpr hred.le)

/-- An `if` or a `while` behind other statements is not linked to them. -/
theorem Chained.snoc_block (h : Chained l s s₁ p m as) (hs₁ : s₁ = (l.reduce s).2)
    (hp : p = (l.reduce s).1) (hx : ¬ x.IsSimple) (hlen : as.length ≤ l.length) :
    Chained (.snoc l x) s ((SourceList.snoc l x).reduce s).2
      ((SourceList.snoc l x).reduce s).1 (x.reduce s₁).1 as := by
  have hred := x.reduce_spec s₁
  obtain ⟨m', hm', hle, -⟩ := hred.moved hx
  have hreduce : (SourceList.snoc l x).reduce s = (p,
      { (x.reduce s₁).2.modify m' (Obj.setNxt (some (x.reduce s₁).1)) with
        chkpnt := some (x.reduce s₁).1 }) := by
    rw [← reduceSnoc_eq hm', hp, hs₁]
    rfl
  rw [hreduce]
  refine ⟨rfl, ?_, fun a ha => ⟨(h.range a ha).1,
      Nat.lt_of_lt_of_le (h.range a ha).2 hred.grows.next_le⟩,
    .inr ⟨fun h => hx h.2, Nat.lt_succ_of_le hlen, fun hmem => ?_⟩⟩
  · refine h.chain.congr (nxtOf_map_congr fun a ha => ?_)
    exact (hred.grows.modify hle _).old a (h.range a ha).2
  · exact absurd (h.range _ hmem).2 (Nat.not_lt.mpr hred.le)

end

theorem SourceList.length_addrs : ∀ (l : SourceList) (s : Parser), (l.addrs s).length = l.length
  | .one _, _ => rfl
  | .snoc l x, s => by
    rw [SourceList.addrs, List.length_append, l.length_addrs s]
    rfl

/-- The chain after the actions for a list. -/
theorem SourceList.chained : ∀ (l : SourceList) (s : Parser),
    ∃ m as, Chained l s (l.reduce s).2 (l.reduce s).1 m as
  | .one x, s => ⟨_, _, chained_one x s⟩
  | .snoc l x, s => by
    obtain ⟨m, as, h⟩ := l.chained s
    by_cases hx : x.IsSimple
    · obtain ⟨as', h'⟩ := h.snoc_simple rfl rfl hx
      exact ⟨_, as', h'⟩
    · refine ⟨_, as, h.snoc_block rfl rfl hx ?_⟩
      rcases h.ends with ⟨-, rfl, -⟩ | ⟨-, hlen, -⟩
      · exact Nat.le_of_eq (l.length_addrs s)
      · exact Nat.le_of_lt hlen

/-! ## Which lists are in source order -/

/-- The heaps are the same from `lo` on and below `hi`. -/
def SameOn (heap' heap : Heap) (lo hi : Nat) : Prop := ∀ b, lo ≤ b → b < hi → heap' b = heap b

/-- But for the link of the node at `m`. -/
def SameBut (heap' heap : Heap) (lo hi m : Nat) : Prop :=
  (∀ b, lo ≤ b → b < hi → b ≠ m → heap' b = heap b) ∧
    ∃ nxt, heap' m = (heap m).map (Obj.setNxt nxt)

section
variable {heap heap' : Heap} {a i c t f : Nat} {nxt : Ptr} {cond tCase fCase : SourceList}
  {l : SourceList} {s : Parser} {p m lo hi : Nat}

theorem at_ifThen_iff (ha : heap a = some (.stmt (.ifStmt (some i)) nxt))
    (hi : heap i = some (.ifStmt (some c) none (some t))) :
    (Source.ifThen cond tCase).At heap a ↔ cond.At heap c ∧ tCase.At heap t := by
  rw [Source.At]
  constructor
  · rintro ⟨nxt', i', c', t', ha', hi', hcond, htCase⟩
    rw [ha] at ha'
    obtain ⟨⟨⟩⟩ := ha'
    rw [hi] at hi'
    obtain ⟨⟨⟩⟩ := hi'
    exact ⟨hcond, htCase⟩
  · rintro ⟨hcond, htCase⟩
    exact ⟨nxt, i, c, t, ha, hi, hcond, htCase⟩

theorem at_ifThenElse_iff (ha : heap a = some (.stmt (.ifStmt (some i)) nxt))
    (hi : heap i = some (.ifStmt (some c) (some f) (some t))) :
    (Source.ifThenElse cond tCase fCase).At heap a ↔
      cond.At heap c ∧ tCase.At heap t ∧ fCase.At heap f := by
  rw [Source.At]
  constructor
  · rintro ⟨nxt', i', c', t', f', ha', hi', hcond, htCase, hfCase⟩
    rw [ha] at ha'
    obtain ⟨⟨⟩⟩ := ha'
    rw [hi] at hi'
    obtain ⟨⟨⟩⟩ := hi'
    exact ⟨hcond, htCase, hfCase⟩
  · rintro ⟨hcond, htCase, hfCase⟩
    exact ⟨nxt, i, c, t, f, ha, hi, hcond, htCase, hfCase⟩

theorem at_whileDo_iff (ha : heap a = some (.stmt (.whileStmt (some i)) nxt))
    (hi : heap i = some (.whileStmt (some c) (some t))) :
    (Source.whileDo cond tCase).At heap a ↔ cond.At heap c ∧ tCase.At heap t := by
  rw [Source.At]
  constructor
  · rintro ⟨nxt', i', c', t', ha', hi', hcond, htCase⟩
    rw [ha] at ha'
    obtain ⟨⟨⟩⟩ := ha'
    rw [hi] at hi'
    obtain ⟨⟨⟩⟩ := hi'
    exact ⟨hcond, htCase⟩
  · rintro ⟨hcond, htCase⟩
    exact ⟨nxt, i, c, t, ha, hi, hcond, htCase⟩

/-- The addresses of the statements are as many. -/
theorem SourceList.Stmts.length_eq : ∀ {l : SourceList} {as : List Nat}, l.Stmts heap as →
    as.length = l.length
  | .one _, _, ⟨_, rfl, _⟩ => rfl
  | .snoc _ _, _, ⟨bs, a, rfl, hl, _⟩ => by
    rw [List.length_append, hl.length_eq]
    rfl

theorem SourceList.Flat.tame : ∀ {l : SourceList}, l.Flat → l.Tame
  | .one _, _ => trivial
  | .snoc _ _, h => ⟨h.1.tame, h.2⟩

/-- A list is in source order in a heap that is the same on its nodes when it has no `if` or
`while` behind another statement, and its statements are so. -/
theorem at_iff_of_stmts
    (hstmts : ∀ m, (l.reduce s).2.chkpnt = some m → l.Tame →
      SameBut heap' (l.reduce s).2.heap s.next (l.reduce s).2.next m →
      (l.Stmts heap' (l.addrs s) ↔ l.Flat))
    (hsame : SameOn heap' (l.reduce s).2.heap s.next (l.reduce s).2.next) :
    l.At heap' (l.reduce s).1 ↔ l.Flat := by
  obtain ⟨m, as, h⟩ := l.chained s
  have hchain : Chain none (nxtOf heap') (some (l.reduce s).1) (as.map some) :=
    h.chain.congr (nxtOf_map_congr fun b hb => hsame b (h.range b hb).1 (h.range b hb).2)
  -- the chain in the other heap is this one
  have hunique : ∀ as', IsList heap' (l.reduce s).1 as' → as' = as := fun as' has' =>
    List.map_injective_iff.mpr (Option.some_injective Nat) (has'.1.unique hchain)
  rcases h.ends with ⟨htame, rfl, ⟨bs, hbs⟩, val, hnode⟩ | ⟨htame, hlen, -⟩
  · have hm : m ∈ l.addrs s := by
      rw [hbs]
      exact List.mem_append_right _ List.mem_cons_self
    have hbut : SameBut heap' (l.reduce s).2.heap s.next (l.reduce s).2.next m := by
      refine ⟨fun b hle hlt _ => hsame b hle hlt, none, ?_⟩
      rw [hsame m (h.range m hm).1 (h.range m hm).2, hnode]
      rfl
    rw [← hstmts m h.chkpnt htame hbut]
    constructor
    · rintro ⟨as', has', hstmts'⟩
      rw [← hunique as' has']
      exact hstmts'
    · exact fun hstmts' => ⟨_, ⟨hchain, hchain.nodup.of_map _⟩, hstmts'⟩
  · refine ⟨?_, fun hflat => absurd hflat.tame htame⟩
    rintro ⟨as', has', hstmts'⟩
    rw [hunique as' has'] at hstmts'
    exact absurd hstmts'.length_eq (Nat.ne_of_lt hlen)

/-- The parts of a statement that is built from `s` are the same in a heap that is the same but
for the link of the statement. -/
theorem SameBut.parts {s s₀ s₁ s₂ : Parser} {a : Nat} (h : SameBut heap' s₂.heap s.next s₂.next a)
    (hs₀ : s.next ≤ s₀.next) (hs₁ : Grows s₁ s₂) (ha : s₁.next ≤ a) :
    SameOn heap' s₁.heap s₀.next s₁.next := fun b hle hlt => by
  rw [h.1 b (Nat.le_trans hs₀ hle) (Nat.lt_of_lt_of_le hlt hs₁.next_le)
    (Nat.ne_of_lt (Nat.lt_of_lt_of_le hlt ha))]
  exact hs₁.old b hlt

/-- The nodes of an `if` or a `while` that is built from `s`, behind its parts. -/
theorem SameBut.block {s s₁ s₂ : Parser} {o : Obj} {val : StmtVal}
    (h : SameBut heap' s₂.heap s.next s₂.next s₁.next) (hs₁ : s.next ≤ s₁.next)
    (hnext : s₂.next = s₁.next + 2) (ha : s₂.heap s₁.next = some (.stmt val none))
    (ho : s₂.heap (s₁.next + 1) = some o) :
    (∃ nxt, heap' s₁.next = some (.stmt val nxt)) ∧ heap' (s₁.next + 1) = some o := by
  obtain ⟨nxt, hnxt⟩ := h.2
  rw [ha] at hnxt
  refine ⟨⟨nxt, hnxt⟩, ?_⟩
  rw [h.1 _ (Nat.le_succ_of_le hs₁) (by omega) (Nat.succ_ne_self _), ho]

end

mutual

/-- After the actions for a statement, and whatever it is linked to then, it is at its address
with its lists in source order exactly when no list in it has an `if` or `while` behind
another statement. -/
theorem Source.at_iff : ∀ (x : Source) (s : Parser) (heap' : Heap),
    SameBut heap' (x.reduce s).2.heap s.next (x.reduce s).2.next (x.reduce s).1 →
    (x.At heap' (x.reduce s).1 ↔ x.Flat)
  | .simple x, s, heap', h => by
    obtain ⟨nxt, hnxt⟩ := h.2
    have hreduce : (Source.simple x).reduce s = _ := x.reduce_eq s
    rw [hreduce, modify_heap, if_pos rfl, malloc_heap, if_pos rfl] at hnxt
    rw [hreduce, Source.At, Source.Flat, iff_true]
    exact ⟨nxt, hnxt⟩
  | .ifThen cond tCase, s, heap', h => by
    have hcond := (cond.reduce_spec s).grows
    have htCase := (tCase.reduce_spec (cond.reduce s).2).grows
    have hle := hcond.next_le
    have hle' := htCase.next_le
    obtain ⟨hgrows, hnext, -, ha, hi⟩ := block_spec (tCase.reduce (cond.reduce s).2).2
      (.ifStmt none none none)
      (Obj.setIf (some (cond.reduce s).1) none (some (tCase.reduce (cond.reduce s).2).1))
      (.ifStmt (some ((tCase.reduce (cond.reduce s).2).2.next + 1)))
    obtain ⟨⟨nxt, ha⟩, hi⟩ := h.block (Nat.le_trans hle hle') hnext ha hi
    rw [Source.Flat, show ((Source.ifThen cond tCase).reduce s).1 =
      (tCase.reduce (cond.reduce s).2).2.next from rfl, at_ifThen_iff ha hi,
      at_iff_of_stmts (fun m hm htame => cond.stmts_iff s heap' m hm htame)
        (h.parts (Nat.le_refl _) (htCase.trans hgrows) hle'),
      at_iff_of_stmts (fun m hm htame => tCase.stmts_iff _ heap' m hm htame)
        (h.parts hle hgrows (Nat.le_refl _))]
  | .ifThenElse cond tCase fCase, s, heap', h => by
    have hcond := (cond.reduce_spec s).grows
    have htCase := (tCase.reduce_spec (cond.reduce s).2).grows
    have hfCase := (fCase.reduce_spec (tCase.reduce (cond.reduce s).2).2).grows
    have hle := hcond.next_le
    have hle' := htCase.next_le
    have hle'' := hfCase.next_le
    obtain ⟨hgrows, hnext, -, ha, hi⟩ := block_spec
      (fCase.reduce (tCase.reduce (cond.reduce s).2).2).2 (.ifStmt none none none)
      (Obj.setIf (some (cond.reduce s).1) (some (fCase.reduce (tCase.reduce (cond.reduce s).2).2).1)
        (some (tCase.reduce (cond.reduce s).2).1))
      (.ifStmt (some ((fCase.reduce (tCase.reduce (cond.reduce s).2).2).2.next + 1)))
    obtain ⟨⟨nxt, ha⟩, hi⟩ := h.block (Nat.le_trans (Nat.le_trans hle hle') hle'') hnext ha hi
    rw [Source.Flat, show ((Source.ifThenElse cond tCase fCase).reduce s).1 =
      (fCase.reduce (tCase.reduce (cond.reduce s).2).2).2.next from rfl, at_ifThenElse_iff ha hi,
      at_iff_of_stmts (fun m hm htame => cond.stmts_iff s heap' m hm htame)
        (h.parts (Nat.le_refl _) ((htCase.trans hfCase).trans hgrows) (Nat.le_trans hle' hle'')),
      at_iff_of_stmts (fun m hm htame => tCase.stmts_iff _ heap' m hm htame)
        (h.parts hle (hfCase.trans hgrows) hle''),
      at_iff_of_stmts (fun m hm htame => fCase.stmts_iff _ heap' m hm htame)
        (h.parts (Nat.le_trans hle hle') hgrows (Nat.le_refl _))]
  | .whileDo cond execute, s, heap', h => by
    have hcond := (cond.reduce_spec s).grows
    have hexecute := (execute.reduce_spec (cond.reduce s).2).grows
    have hle := hcond.next_le
    have hle' := hexecute.next_le
    obtain ⟨hgrows, hnext, -, ha, hi⟩ := block_spec (execute.reduce (cond.reduce s).2).2
      (.whileStmt none none)
      (Obj.setWhile (some (cond.reduce s).1) (some (execute.reduce (cond.reduce s).2).1))
      (.whileStmt (some ((execute.reduce (cond.reduce s).2).2.next + 1)))
    have hgrows' : Grows (execute.reduce (cond.reduce s).2).2
        ((Source.whileDo cond execute).reduce s).2 := ⟨hgrows.next_le, hgrows.old⟩
    obtain ⟨⟨nxt, ha⟩, hi⟩ := h.block (Nat.le_trans hle hle') hnext ha hi
    rw [Source.Flat, show ((Source.whileDo cond execute).reduce s).1 =
      (execute.reduce (cond.reduce s).2).2.next from rfl, at_whileDo_iff ha hi,
      at_iff_of_stmts (fun m hm htame => cond.stmts_iff s heap' m hm htame)
        (h.parts (Nat.le_refl _) (hexecute.trans hgrows') hle'),
      at_iff_of_stmts (fun m hm htame => execute.stmts_iff _ heap' m hm htame)
        (h.parts hle hgrows' (Nat.le_refl _))]

/-- After the actions for a list whose statements behind the first one are simple. -/
theorem SourceList.stmts_iff : ∀ (l : SourceList) (s : Parser) (heap' : Heap) (m : Nat),
    (l.reduce s).2.chkpnt = some m → l.Tame →
    SameBut heap' (l.reduce s).2.heap s.next (l.reduce s).2.next m →
    (l.Stmts heap' (l.addrs s) ↔ l.Flat)
  | .one x, s, heap', m, hm, _, h => by
    obtain rfl : (x.reduce s).1 = m := Option.some.inj hm
    rw [SourceList.Stmts, SourceList.Flat, SourceList.addrs]
    simp only [List.cons.injEq, and_true, exists_eq_left']
    exact x.at_iff s heap' h
  | .snoc l x, s, heap', m, hm, htame, h => by
    obtain ⟨m₀, hm₀, hle, hlt⟩ := (l.reduce_spec s).chkpnt
    have hred := x.reduce_spec (l.reduce s).2
    have hreduce : (SourceList.snoc l x).reduce s = _ :=
      reduceSnoc_eq (p := (l.reduce s).1) (x := (x.reduce (l.reduce s).2).1)
        ((hred.kept htame.2).trans hm₀)
    rw [hreduce] at hm h
    obtain rfl : (x.reduce (l.reduce s).2).1 = m := Option.some.inj hm
    have hnext := (l.reduce_spec s).grows.next_le
    have hne : (x.reduce (l.reduce s).2).1 ≠ m₀ :=
      (Nat.ne_of_lt (Nat.lt_of_lt_of_le hlt hred.le)).symm
    -- the statements in front keep their nodes, but for the link of the last one
    have hl : SameBut heap' (l.reduce s).2.heap s.next (l.reduce s).2.next m₀ := by
      refine ⟨fun b hb hb' hbm => ?_, some (x.reduce (l.reduce s).2).1, ?_⟩
      · rw [h.1 b hb (Nat.lt_of_lt_of_le hb' hred.grows.next_le)
          (Nat.ne_of_lt (Nat.lt_of_lt_of_le hb' hred.le)), modify_heap, if_neg hbm]
        exact hred.grows.old b hb'
      · rw [h.1 m₀ hle (Nat.lt_of_lt_of_le hlt hred.grows.next_le) hne.symm, modify_heap, if_pos rfl,
          hred.grows.old m₀ hlt]
    have hx : SameBut heap' (x.reduce (l.reduce s).2).2.heap (l.reduce s).2.next
        (x.reduce (l.reduce s).2).2.next (x.reduce (l.reduce s).2).1 := by
      refine ⟨fun b hb hb' hbm => ?_, ?_⟩
      · rw [h.1 b (Nat.le_trans hnext hb) hb' hbm, modify_heap,
          if_neg (Nat.ne_of_lt (Nat.lt_of_lt_of_le hlt hb)).symm]
      · obtain ⟨nxt, hnxt⟩ := h.2
        rw [modify_heap, if_neg hne] at hnxt
        exact ⟨nxt, hnxt⟩
    have hflat : x.Flat := by
      cases x with
      | simple x => trivial
      | _ => exact absurd htame.2 id
    rw [SourceList.Stmts, SourceList.Flat, SourceList.addrs, ← l.stmts_iff s heap' m₀ hm₀ htame.1 hl]
    constructor
    · rintro ⟨bs, a, has, hbs, -⟩
      rw [(List.append_inj' has rfl).1]
      exact ⟨hbs, htame.2⟩
    · exact fun hbs => ⟨_, _, rfl, hbs.1, (x.at_iff _ heap' hx).mpr hflat⟩

end

/-! ## Execution in source order -/

/-- The statements of a list, the first one first. -/
def SourceList.stmts : SourceList → List Source
  | .one x => [x]
  | .snoc l x => l.stmts ++ [x]

section
variable {σ : Type} {m : Machine σ} {heap : Heap}

/-- The statement at `a` is executed, with enough fuel and from every state, as it should. -/
def Runs (m : Machine σ) (heap : Heap) (x : Source) (a : Nat) : Prop :=
  ∃ val nxt n, heap a = some (.stmt val nxt) ∧ ∀ fuel, n ≤ fuel → ∀ retval st,
    stmtCase m heap (fun p st => stmtLoop m heap fuel p 0 st) fuel retval st val =
      some (x.run m retval st)

theorem run_eq_foldl : ∀ (l : SourceList) (st : σ),
    l.run m st = l.stmts.foldl (fun r x => x.run m r.1 r.2) (0, st)
  | .one _, _ => rfl
  | .snoc l x, st => by
    rw [SourceList.run, SourceList.stmts, List.foldl_append, ← run_eq_foldl l st]
    rfl

/-- The loop executes the statements of a chain one after the other. -/
theorem stmtLoop_chain {xs : List Source} {as : List Nat} {p : Ptr}
    (hchain : Chain none (nxtOf heap) p (as.map some)) (hruns : List.Forall₂ (Runs m heap) xs as) :
    ∃ n, ∀ fuel, n ≤ fuel → ∀ r : BitVec 32 × σ,
      stmtLoop m heap fuel p r.1 r.2 = some (xs.foldl (fun r x => x.run m r.1 r.2) r) := by
  induction hruns generalizing p with
  | nil =>
    refine ⟨1, fun fuel hfuel r => ?_⟩
    obtain ⟨fuel, rfl⟩ : ∃ k, fuel = k + 1 := ⟨fuel - 1, by omega⟩
    rw [show p = none from hchain]
    rfl
  | @cons x a xs as hx _ ih =>
    obtain ⟨rfl, -, htail⟩ := hchain
    obtain ⟨val, nxt, n, ha, hcase⟩ := hx
    rw [nxtOf_stmt ha] at htail
    obtain ⟨n', hn'⟩ := ih htail
    refine ⟨n + n' + 1, fun fuel hfuel r => ?_⟩
    obtain ⟨fuel, rfl⟩ : ∃ k, fuel = k + 1 := ⟨fuel - 1, by omega⟩
    simp only [stmtLoop, ha, hcase fuel (by omega), Option.bind_eq_bind, Option.bind_some,
      List.foldl_cons]
    exact hn' fuel (by omega) _

/-- A list in source order is executed in source order. -/
theorem stmtLoop_list {l : SourceList} {p : Nat} {as : List Nat} (hlist : IsList heap p as)
    (hruns : List.Forall₂ (Runs m heap) l.stmts as) :
    ∃ n, ∀ fuel, n ≤ fuel → ∀ st, stmtLoop m heap fuel (some p) 0 st = some (l.run m st) := by
  obtain ⟨n, hn⟩ := stmtLoop_chain hlist.1 hruns
  refine ⟨n, fun fuel hfuel st => ?_⟩
  rw [run_eq_foldl]
  exact hn fuel hfuel (0, st)

theorem runs_simple {x : Simple} {a : Nat} {nxt : Ptr} (ha : heap a = some (.stmt x.val nxt)) :
    Runs m heap (.simple x) a := by
  refine ⟨x.val, nxt, 0, ha, fun fuel _ retval st => ?_⟩
  cases x with
  | words t w =>
    cases t with
    | _ => rfl
  | expr e => rfl

mutual

theorem Source.runs : ∀ {x : Source} {a : Nat}, x.At heap a → x.NoWhile → Runs m heap x a
  | .simple x, a, ⟨nxt, ha⟩, _ => runs_simple ha
  | .ifThen cond tCase, a, ⟨nxt, i, c, t, ha, hi, ⟨as, has, hcond⟩, ⟨bs, hbs, htCase⟩⟩, h => by
    obtain ⟨n, hn⟩ := stmtLoop_list has (hcond.runs h.1)
    obtain ⟨n', hn'⟩ := stmtLoop_list hbs (htCase.runs h.2)
    refine ⟨_, nxt, n + n' + 1, ha, fun fuel hfuel retval st => ?_⟩
    simp only [stmtCase, Option.bind_some, hi, ifExecute, hn fuel (by omega), Option.bind_eq_bind,
      Source.run]
    by_cases hb : (cond.run m st).1 ≠ 0
    · rw [if_pos hb, if_pos hb, hn' fuel (by omega)]
    · obtain ⟨fuel, rfl⟩ : ∃ k, fuel = k + 1 := ⟨fuel - 1, by omega⟩
      rw [if_neg hb, if_neg hb]
      rfl
  | .ifThenElse cond tCase fCase, a, ⟨nxt, i, c, t, f, ha, hi, ⟨as, has, hcond⟩, ⟨bs, hbs, htCase⟩,
      ⟨cs, hcs, hfCase⟩⟩, h => by
    obtain ⟨n, hn⟩ := stmtLoop_list has (hcond.runs h.1)
    obtain ⟨n', hn'⟩ := stmtLoop_list hbs (htCase.runs h.2.1)
    obtain ⟨n'', hn''⟩ := stmtLoop_list hcs (hfCase.runs h.2.2)
    refine ⟨_, nxt, n + n' + n'', ha, fun fuel hfuel retval st => ?_⟩
    simp only [stmtCase, Option.bind_some, hi, ifExecute, hn fuel (by omega), Option.bind_eq_bind,
      Source.run]
    by_cases hb : (cond.run m st).1 ≠ 0
    · rw [if_pos hb, if_pos hb, hn' fuel (by omega)]
    · rw [if_neg hb, if_neg hb, hn'' fuel (by omega)]
  | .whileDo _ _, _, _, h => h.elim

theorem SourceList.Stmts.runs : ∀ {l : SourceList} {as : List Nat}, l.Stmts heap as → l.NoWhile →
    List.Forall₂ (Runs m heap) l.stmts as
  | .one _, _, ⟨_, rfl, hx⟩, h => .cons (Source.runs hx h) .nil
  | .snoc _ _, _, ⟨_, _, rfl, hl, hx⟩, h =>
    List.rel_append (hl.runs h.1) (.cons (Source.runs hx h.2) .nil)

end

end

/-- After the actions for a list, its chain and those of the lists in it are in source order
exactly when none of them has an `if` or a `while` behind another statement. -/
theorem at_reduce_iff (l : SourceList) (s : Parser) :
    l.At (l.reduce s).2.heap (l.reduce s).1 ↔ l.Flat :=
  at_iff_of_stmts (fun m hm htame => l.stmts_iff s _ m hm htame) fun _ _ _ => rfl

/-- In every state of the parser and for every list, with `if` and `while` to any depth: after
the actions for the list the chain of each list in it has exactly its statements in source
order, and without `while` it is executed to its end, each statement once and in order, if and
only if no list in it has an `if` or a `while` behind another statement. -/
theorem lists_in_order_iff (l : SourceList) (s : Parser) :
    (l.At (l.reduce s).2.heap (l.reduce s).1 ∧
      (l.NoWhile → ∀ (σ : Type) (m : Machine σ), ∃ n, ∀ fuel, n ≤ fuel → ∀ st,
        kshellStmtExecute m (l.reduce s).2.heap fuel (some (l.reduce s).1) st =
          some (l.run m st))) ↔
      l.Flat := by
  rw [← at_reduce_iff l s, and_iff_left_iff_imp]
  rintro ⟨as, hlist, hstmts⟩ hnoWhile σ m
  exact stmtLoop_list hlist (hstmts.runs hnoWhile)

/-- The parser with `n` expressions `1`, at the addresses below `n`. -/
def ones : Nat → Parser
  | 0 => parserStart
  | n + 1 =>
    let (e, s) := exprCreate (ones n)
    (exprSetInt (some e) 1 s).2

/-- `$((1)); if $((1)); then $((1)); fi`. -/
def ifBehind : SourceList :=
  .snoc (.one (.simple (.expr 0)))
    (.ifThen (.one (.simple (.expr 1))) (.one (.simple (.expr 2))))

/-- `$((1)); while $((1)); do $((1)); done`. -/
def whileBehind : SourceList :=
  .snoc (.one (.simple (.expr 0)))
    (.whileDo (.one (.simple (.expr 1))) (.one (.simple (.expr 2))))

/-- The expressions that are evaluated, the last one first; their value is 1. -/
def evaluations : Machine (List Nat) where
  builtIn := fun _ st => (0, st)
  exprEval := fun e st => (1, e :: st)
  envAssign := fun _ st => st

/-- The `if`, at 6, is linked to the last statement inside it, at 5, and the statement in front,
at 3, to nothing: it alone is executed.  A `while` in its place is linked to itself. -/
theorem lists_not_in_order :
    ¬ ifBehind.At (ifBehind.reduce (ones 3)).2.heap (ifBehind.reduce (ones 3)).1 ∧
    (ifBehind.reduce (ones 3)).1 = 3 ∧
    nxtOf (ifBehind.reduce (ones 3)).2.heap (some 3) = none ∧
    nxtOf (ifBehind.reduce (ones 3)).2.heap (some 5) = some 6 ∧
    kshellStmtExecute evaluations (ifBehind.reduce (ones 3)).2.heap 4
      (some (ifBehind.reduce (ones 3)).1) [] = some (1, [0]) ∧
    ifBehind.run evaluations [] = (1, [2, 1, 0]) ∧
    ¬ whileBehind.At (whileBehind.reduce (ones 3)).2.heap (whileBehind.reduce (ones 3)).1 ∧
    nxtOf (whileBehind.reduce (ones 3)).2.heap (some 6) = some 6 := by
  refine ⟨?_, rfl, by decide, by decide, by decide, by decide, ?_, by decide⟩
  · rw [at_reduce_iff]
    exact fun h => h.2
  · rw [at_reduce_iff]
    exact fun h => h.2

end Ko6.Uapp
