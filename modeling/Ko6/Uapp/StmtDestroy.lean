import Ko6.Lib.Frees
import Ko6.Uapp.StmtList

set_option autoImplicit false

/-!
# Uapp: how statements are destroyed

`stmt_destroy`, `if_stmt_destroy`, `while_stmt_destroy` and `expr_destroy` of
`uapp/kshell/stmt.c`, and `wordlist_destroy`.  To read or to free what is not allocated is a
fault.  `while_stmt_destroy` destroys the condition of a `while` when there is none, and
leaves it where there is one.
-/

namespace Ko6.Uapp

open Ko6.Lib

/-! ## The functions -/

/-- `free`, which exits on `NULL` and on what is not allocated. -/
def free (p : Ptr) (h : Heap) : Option Heap := p.bind (freeAt h)

/-- The type and the union of the statement at `p`, and its `nxt`. -/
def readStmt (h : Heap) (p : Ptr) : Option (StmtVal × Ptr) :=
  match p.bind h with
  | some (.stmt val nxt) => some (val, nxt)
  | _ => none

/-- The `if_stmt` at `p`. -/
def readIf (h : Heap) (p : Ptr) : Option (Ptr × Ptr × Ptr) :=
  match p.bind h with
  | some (.ifStmt condition branch0 branch1) => some (condition, branch0, branch1)
  | _ => none

/-- The `while_stmt` at `p`. -/
def readWhile (h : Heap) (p : Ptr) : Option (Ptr × Ptr) :=
  match p.bind h with
  | some (.whileStmt condition execute) => some (condition, execute)
  | _ => none

/-- The expression at `p`. -/
def readExpr (h : Heap) (p : Ptr) : Option ExprVal :=
  match p.bind h with
  | some (.expr val) => some val
  | _ => none

/-- `v.e[1]` of the expression at `p`. -/
def readRight (h : Heap) (p : Ptr) : Option Ptr :=
  match readExpr h p with
  | some (.binary _ _ r) => some r
  | some (.assign _ r) => some r
  | _ => none

/-- The node of a word list at `p`. -/
def readWordlist (h : Heap) (p : Ptr) : Option (Ptr × Ptr) :=
  match p.bind h with
  | some (.wordlist word nxt) => some (word, nxt)
  | _ => none

/-- `if (p) destroy(p);`. -/
def destroyIf (destroy : Ptr → Heap → Option Heap) (p : Ptr) (h : Heap) : Option Heap :=
  if p ≠ none then destroy p h else some h

/-- `wordlist_destroy`. -/
def wordlistDestroy : Nat → Ptr → Heap → Option Heap
  | 0, _, _ => none
  | fuel + 1, wordlist, h => do
    let (_, nxt) ← readWordlist h wordlist
    let h ← destroyIf (wordlistDestroy fuel) nxt h
    let (word, _) ← readWordlist h wordlist
    let h ← free word h
    free wordlist h

/-- `if_stmt_destroy`, with the function for statements. -/
def ifStmtDestroy (stmtDestroy : Ptr → Heap → Option Heap) (victim : Ptr) (h : Heap) :
    Option Heap :=
  if victim = none then some h
  else do
    let (condition, _, _) ← readIf h victim
    let h ← destroyIf stmtDestroy condition h
    let (_, branch0, _) ← readIf h victim
    let h ← destroyIf stmtDestroy branch0 h
    let (_, _, branch1) ← readIf h victim
    let h ← destroyIf stmtDestroy branch1 h
    free victim h

/-- `while_stmt_destroy`, with the function for statements. -/
def whileStmtDestroy (stmtDestroy : Ptr → Heap → Option Heap) (victim : Ptr) (h : Heap) :
    Option Heap :=
  if victim = none then some h
  else do
    let (condition, _) ← readWhile h victim
    -- the test of the source is `!victim->condition`
    let h ← (if condition = none then stmtDestroy condition h else some h)
    let (_, execute) ← readWhile h victim
    let h ← destroyIf stmtDestroy execute h
    free victim h

/-- The `switch` of `stmt_destroy`. -/
def destroyStmtVal (stmtDestroy exprDestroy wordlistDestroy : Ptr → Heap → Option Heap) :
    StmtVal → Heap → Option Heap
  | .simple _ w, h => wordlistDestroy w h
  | .whileStmt w, h => whileStmtDestroy stmtDestroy w h
  | .ifStmt i, h => ifStmtDestroy stmtDestroy i h
  | .expr e, h => exprDestroy e h
  | .pipeline, h => some h
  | .null, h => some h

/-- The `switch` of `expr_destroy`. -/
def destroyExprVal (stmtDestroy exprDestroy : Ptr → Heap → Option Heap) (victim : Ptr) :
    ExprVal → Heap → Option Heap
  | .binary _ l _, h => do
    let h ← exprDestroy l h
    let r ← readRight h victim
    exprDestroy r h
  | .assign l _, h => do
    let h ← exprDestroy l h
    let r ← readRight h victim
    exprDestroy r h
  | .notOp e, h => exprDestroy e h
  | .int _, h => some h
  | .word w, h => free w h
  | .stmt s, h => stmtDestroy s h
  | .null, h => some h

mutual

/-- `stmt_destroy`. -/
def stmtDestroy : Nat → Ptr → Heap → Option Heap
  | 0, _, _ => none
  | fuel + 1, victim, h =>
    if victim = none then some h
    else do
      let (val, _) ← readStmt h victim
      let h ← destroyStmtVal (stmtDestroy fuel) (exprDestroy fuel) (wordlistDestroy fuel) val h
      let (_, nxt) ← readStmt h victim
      let h ← destroyIf (stmtDestroy fuel) nxt h
      free victim h

/-- `expr_destroy`. -/
def exprDestroy : Nat → Ptr → Heap → Option Heap
  | 0, _, _ => none
  | fuel + 1, victim, h =>
    if victim = none then some h
    else do
      let val ← readExpr h victim
      let h ← destroyExprVal (stmtDestroy fuel) (exprDestroy fuel) victim val h
      free victim h

end

/-! ## Statement trees -/

/-- A list of words, with the addresses of its nodes and of their strings. -/
inductive WordsTree where
  | last (a word : Nat)
  | cons (a word : Nat) (nxt : WordsTree)

mutual

/-- What a pointer to a statement has below it. -/
inductive StmtTree where
  | nil
  | node (a : Nat) (val : StmtValTree) (nxt : StmtTree)

/-- What the union of a statement has below it. -/
inductive StmtValTree where
  | null
  | pipeline
  | simple (t : SimpleType) (w : WordsTree)
  | emptyIf
  | ifStmt (i : Nat) (condition branch0 branch1 : StmtTree)
  | emptyWhile
  | whileStmt (w : Nat) (condition execute : StmtTree)
  | expr (e : ExprTree)

/-- What a pointer to an expression has below it. -/
inductive ExprTree where
  | nil
  | null (a : Nat)
  | binary (a : Nat) (op : BinaryOp) (l r : ExprTree)
  | assign (a : Nat) (l r : ExprTree)
  | notOp (a : Nat) (e : ExprTree)
  | int (a : Nat) (v : BitVec 32)
  | word (a w : Nat)
  | stmt (a : Nat) (s : StmtTree)

end

def WordsTree.ptr : WordsTree → Ptr
  | last a _ => some a
  | cons a _ _ => some a

def StmtTree.ptr : StmtTree → Ptr
  | nil => none
  | node a _ _ => some a

def ExprTree.ptr : ExprTree → Ptr
  | nil => none
  | null a => some a
  | binary a _ _ _ => some a
  | assign a _ _ => some a
  | notOp a _ => some a
  | int a _ => some a
  | word a _ => some a
  | stmt a _ => some a

/-- The type and the union of the statement. -/
def StmtValTree.val : StmtValTree → StmtVal
  | null => .null
  | pipeline => .pipeline
  | simple t w => .simple t w.ptr
  | emptyIf => .ifStmt none
  | ifStmt i _ _ _ => .ifStmt (some i)
  | emptyWhile => .whileStmt none
  | whileStmt w _ _ => .whileStmt (some w)
  | expr e => .expr e.ptr

/-- There is a string at `a`. -/
def StrAt (h : Heap) (a : Nat) : Prop := ∃ s, h a = some (.str s)

/-- The nodes of the list are in the heap. -/
def WordsTree.On (h : Heap) : WordsTree → Prop
  | last a word => h a = some (.wordlist (some word) none) ∧ StrAt h word
  | cons a word nxt => h a = some (.wordlist (some word) nxt.ptr) ∧ StrAt h word ∧ nxt.On h

mutual

/-- The nodes of the tree are in the heap. -/
def StmtTree.On (h : Heap) : StmtTree → Prop
  | .nil => True
  | .node a val nxt => h a = some (.stmt val.val nxt.ptr) ∧ val.On h ∧ nxt.On h

def StmtValTree.On (h : Heap) : StmtValTree → Prop
  | .null => True
  | .pipeline => True
  | .simple _ w => w.On h
  | .emptyIf => True
  | .ifStmt i condition branch0 branch1 =>
    h i = some (.ifStmt condition.ptr branch0.ptr branch1.ptr) ∧
      condition.On h ∧ branch0.On h ∧ branch1.On h
  | .emptyWhile => True
  | .whileStmt w condition execute =>
    h w = some (.whileStmt condition.ptr execute.ptr) ∧ condition.On h ∧ execute.On h
  | .expr e => e.On h

def ExprTree.On (h : Heap) : ExprTree → Prop
  | .nil => True
  | .null a => h a = some (.expr .null)
  | .binary a op l r => h a = some (.expr (.binary op l.ptr r.ptr)) ∧ l.On h ∧ r.On h
  | .assign a l r => h a = some (.expr (.assign l.ptr r.ptr)) ∧ l.On h ∧ r.On h
  | .notOp a e => h a = some (.expr (.notOp e.ptr)) ∧ e.On h
  | .int a v => h a = some (.expr (.int v))
  | .word a w => h a = some (.expr (.word (some w))) ∧ StrAt h w
  | .stmt a s => h a = some (.expr (.stmt s.ptr)) ∧ s.On h

end

/-- The addresses of the nodes and of their strings. -/
def WordsTree.addrs : WordsTree → List Nat
  | last a word => [word, a]
  | cons a word nxt => nxt.addrs ++ [word, a]

mutual

/-- The addresses of all the nodes of the tree, with the strings of its words. -/
def StmtTree.addrs : StmtTree → List Nat
  | .nil => []
  | .node a val nxt => val.addrs ++ (nxt.addrs ++ [a])

def StmtValTree.addrs : StmtValTree → List Nat
  | .null => []
  | .pipeline => []
  | .simple _ w => w.addrs
  | .emptyIf => []
  | .ifStmt i condition branch0 branch1 =>
    condition.addrs ++ (branch0.addrs ++ (branch1.addrs ++ [i]))
  | .emptyWhile => []
  | .whileStmt w condition execute => condition.addrs ++ (execute.addrs ++ [w])
  | .expr e => e.addrs

def ExprTree.addrs : ExprTree → List Nat
  | .nil => []
  | .null a => [a]
  | .binary a _ l r => l.addrs ++ (r.addrs ++ [a])
  | .assign a l r => l.addrs ++ (r.addrs ++ [a])
  | .notOp a e => e.addrs ++ [a]
  | .int a _ => [a]
  | .word a w => [w, a]
  | .stmt a s => s.addrs ++ [a]

end

/-- A statement tree in a heap: its nodes are there, and no two of them are one. -/
structure IsTree (h : Heap) (t : StmtTree) : Prop where
  on : t.On h
  nodup : t.addrs.Nodup

/-- `stmt_destroy` ends, and frees every node of the tree once, as to free it again is a fault, and
nothing else. -/
def Destroyed (h : Heap) (t : StmtTree) : Prop :=
  ∃ n, ∀ fuel, n ≤ fuel → stmtDestroy fuel t.ptr h = some (without h t.addrs)

mutual

/-- No `while` in the tree has a condition. -/
def StmtTree.NoCondition : StmtTree → Prop
  | .nil => True
  | .node _ val nxt => val.NoCondition ∧ nxt.NoCondition

def StmtValTree.NoCondition : StmtValTree → Prop
  | .ifStmt _ condition branch0 branch1 =>
    condition.NoCondition ∧ branch0.NoCondition ∧ branch1.NoCondition
  | .whileStmt _ condition execute => condition = .nil ∧ execute.NoCondition
  | .expr e => e.NoCondition
  | _ => True

def ExprTree.NoCondition : ExprTree → Prop
  | .binary _ _ l r => l.NoCondition ∧ r.NoCondition
  | .assign _ l r => l.NoCondition ∧ r.NoCondition
  | .notOp _ e => e.NoCondition
  | .stmt _ s => s.NoCondition
  | _ => True

end

/-! ## What is freed -/

mutual

/-- The addresses that `stmt_destroy` frees: all but those of the conditions of `while`. -/
def StmtTree.freed : StmtTree → List Nat
  | .nil => []
  | .node a val nxt => val.freed ++ (nxt.freed ++ [a])

def StmtValTree.freed : StmtValTree → List Nat
  | .null => []
  | .pipeline => []
  | .simple _ w => w.addrs
  | .emptyIf => []
  | .ifStmt i condition branch0 branch1 =>
    condition.freed ++ (branch0.freed ++ (branch1.freed ++ [i]))
  | .emptyWhile => []
  | .whileStmt w _ execute => execute.freed ++ [w]
  | .expr e => e.freed

def ExprTree.freed : ExprTree → List Nat
  | .nil => []
  | .null a => [a]
  | .binary a _ l r => l.freed ++ (r.freed ++ [a])
  | .assign a l r => l.freed ++ (r.freed ++ [a])
  | .notOp a e => e.freed ++ [a]
  | .int a _ => [a]
  | .word a w => [w, a]
  | .stmt a s => s.freed ++ [a]

end

section
variable {h : Heap} {a : Nat}

/-- The last step of a destruction. -/
theorem frees_free {o : Obj} (ha : h a = some o) : Frees (fun _ => free (some a)) h [a] [a] :=
  frees_freeAt (by rw [ha]; exact Option.some_ne_none o)

/-- Two parts of a list without a repetition have nothing in common. -/
theorem disjoint_of_nodup {as bs : List Nat} (hnodup : (as ++ bs).Nodup) : ∀ b ∈ as, b ∉ bs :=
  fun b ha hb => (List.nodup_append.mp hnodup).2.2 b ha b hb rfl

theorem mem_last {as bs : List Nat} : a ∈ as ++ (bs ++ [a]) :=
  List.mem_append_right _ (List.mem_append_right _ List.mem_cons_self)

/-- The test at the start of a destruction. -/
theorem frees_guarded {f : Nat → Heap → Option Heap} {as bs : List Nat} (hf : Frees f h as bs) :
    Frees (fun n h' => if some a = none then some h' else f n h') h as bs :=
  hf.congr fun _ _ _ => if_neg (Option.some_ne_none a)

/-- `if (p) destroy(p);`, of a pointer whose `NULL` owns nothing. -/
theorem frees_destroyIf {destroy : Nat → Ptr → Heap → Option Heap} {p : Ptr} {as bs : List Nat}
    (hf : Frees (fun n => destroy n p) h as bs) (hnone : p = none → as = [] ∧ bs = []) :
    Frees (fun n => destroyIf (destroy n) p) h as bs := by
  by_cases hp : p = none
  · obtain ⟨rfl, rfl⟩ := hnone hp
    exact frees_nothing fun fuel h' => if_neg fun hne => hne hp
  · exact hf.congr fun h' _ fuel => if_pos hp

theorem frees_words : ∀ (w : WordsTree), w.On h → w.addrs.Nodup →
    Frees (fun n => wordlistDestroy n w.ptr) h w.addrs w.addrs
  | .last a word, ⟨ha, s, hs⟩, hnodup => by
    have hread (h' : Heap) (hh' : ∀ b ∈ [word] ++ [a], h' b = h b) :
        readWordlist h' (some a) = some (some word, none) := by
      rw [readWordlist, Option.bind_some, hh' a (List.mem_append_right _ List.mem_cons_self), ha]
    have hfree := (frees_free hs).seq (frees_free ha) (disjoint_of_nodup hnodup)
    have hnone : Frees (fun n => destroyIf (wordlistDestroy n) none) h [] [] :=
      frees_nothing fun _ _ => if_neg fun hne => hne rfl
    exact .succ (.read (x := (some word, none)) (hnone.seq
      (.read (x := (some word, none)) hfree hread) fun _ hb => absurd hb List.not_mem_nil) hread)
  | .cons a word nxt, ⟨ha, ⟨s, hs⟩, hnxt⟩, hnodup => by
    obtain ⟨hnodup₁, hnodup₂, -⟩ := List.nodup_append.mp hnodup
    have hread (h' : Heap) (hh' : h' a = h a) :
        readWordlist h' (some a) = some (some word, nxt.ptr) := by
      rw [readWordlist, Option.bind_some, hh', ha]
    have hfree := (frees_free hs).seq (frees_free ha) (disjoint_of_nodup hnodup₂)
    have hnxt := frees_destroyIf (frees_words nxt hnxt hnodup₁) fun hnone => by
      cases nxt with
      | last => exact nomatch hnone
      | cons => exact nomatch hnone
    exact .succ (.read (x := (some word, nxt.ptr)) (hnxt.seq
      (.read (x := (some word, nxt.ptr)) hfree
        fun h' hh' => hread h' (hh' a (List.mem_append_right [word] List.mem_cons_self)))
      (disjoint_of_nodup hnodup)) fun h' hh' => hread h' (hh' a
        (List.mem_append_right _ (List.mem_append_right [word] List.mem_cons_self))))

theorem StmtTree.nil_of_ptr {t : StmtTree} (ht : t.ptr = none) : t.addrs = [] ∧ t.freed = [] := by
  cases t with
  | nil => exact ⟨rfl, rfl⟩
  | node => exact nomatch ht

/-- `if_stmt_destroy`. -/
theorem frees_ifStmt {c t f : StmtTree}
    (ha : h a = some (.ifStmt c.ptr t.ptr f.ptr))
    (hc : Frees (fun n => stmtDestroy n c.ptr) h c.addrs c.freed)
    (ht : Frees (fun n => stmtDestroy n t.ptr) h t.addrs t.freed)
    (hf : Frees (fun n => stmtDestroy n f.ptr) h f.addrs f.freed)
    (hnodup : (c.addrs ++ (t.addrs ++ (f.addrs ++ [a]))).Nodup) :
    Frees (fun n => ifStmtDestroy (stmtDestroy n) (some a)) h
      (c.addrs ++ (t.addrs ++ (f.addrs ++ [a]))) (c.freed ++ (t.freed ++ (f.freed ++ [a]))) := by
  have hnodup₂ := (List.nodup_append.mp hnodup).2.1
  have hnodup₃ := (List.nodup_append.mp hnodup₂).2.1
  have hread (h' : Heap) (hh' : h' a = h a) :
      readIf h' (some a) = some (c.ptr, t.ptr, f.ptr) := by
    rw [readIf, Option.bind_some, hh', ha]
  have hfree := (frees_destroyIf hf StmtTree.nil_of_ptr).seq (frees_free ha)
    (disjoint_of_nodup hnodup₃)
  refine frees_guarded (.read (x := (c.ptr, t.ptr, f.ptr)) (.seq
    (frees_destroyIf hc StmtTree.nil_of_ptr) (.read (x := (c.ptr, t.ptr, f.ptr)) (.seq
      (frees_destroyIf ht StmtTree.nil_of_ptr) (.read (x := (c.ptr, t.ptr, f.ptr)) hfree ?_)
      (disjoint_of_nodup hnodup₂)) ?_) (disjoint_of_nodup hnodup)) ?_)
  · exact fun h' hh' => hread h' (hh' a (List.mem_append_right _ List.mem_cons_self))
  · exact fun h' hh' => hread h' (hh' a mem_last)
  · exact fun h' hh' => hread h' (hh' a (List.mem_append_right _ mem_last))

/-- `while_stmt_destroy`, which owns the condition and leaves it there. -/
theorem frees_whileStmt {c e : StmtTree}
    (ha : h a = some (.whileStmt c.ptr e.ptr))
    (hc : Frees (fun n => stmtDestroy n c.ptr) h c.addrs c.freed)
    (he : Frees (fun n => stmtDestroy n e.ptr) h e.addrs e.freed)
    (hnodup : (c.addrs ++ (e.addrs ++ [a])).Nodup) :
    Frees (fun n => whileStmtDestroy (stmtDestroy n) (some a)) h (c.addrs ++ (e.addrs ++ [a]))
      (e.freed ++ [a]) := by
  have hnodup₂ := (List.nodup_append.mp hnodup).2.1
  have hread (h' : Heap) (hh' : ∀ b ∈ e.addrs ++ [a], h' b = h b) :
      readWhile h' (some a) = some (c.ptr, e.ptr) := by
    rw [readWhile, Option.bind_some, hh' a (by simp), ha]
  have he := (frees_destroyIf he StmtTree.nil_of_ptr).seq (frees_free ha) (disjoint_of_nodup hnodup₂)
  -- the test is the wrong way round: nothing is destroyed, with a condition or without
  have hnothing : Frees (fun n h' => if c.ptr = none then stmtDestroy n c.ptr h' else some h') h
      [] [] := by
    cases c with
    | nil => exact hc.congr fun _ _ _ => if_pos rfl
    | node => exact frees_nothing fun _ _ => if_neg (Option.some_ne_none _)
  have hwhile : Frees (fun n => whileStmtDestroy (stmtDestroy n) (some a)) h (e.addrs ++ [a])
      (e.freed ++ [a]) :=
    frees_guarded (.read (x := (c.ptr, e.ptr)) (hnothing.seq
      (.read (x := (c.ptr, e.ptr)) he hread) fun _ hb => absurd hb List.not_mem_nil) hread)
  exact hwhile.leave hc.alloc

/-- `expr_destroy`, but for the part that depends on the type. -/
theorem frees_expr {val : ExprVal} {as bs : List Nat} (ha : h a = some (.expr val)) (hmem : a ∈ as)
    (hval : Frees (fun n h' =>
      destroyExprVal (stmtDestroy n) (exprDestroy n) (some a) val h' >>= free (some a)) h as bs) :
    Frees (fun n => exprDestroy n (some a)) h as bs := by
  refine .succ (frees_guarded (.read (x := val) hval fun h' hh' => ?_))
  rw [readExpr, Option.bind_some, hh' a hmem, ha]

/-- The part for two operands. -/
theorem frees_operands {o : Obj} {l r : ExprTree} (ha : h a = some o)
    (hright : ∀ h' : Heap, h' a = h a → readRight h' (some a) = some r.ptr)
    (hl : Frees (fun n => exprDestroy n l.ptr) h l.addrs l.freed)
    (hr : Frees (fun n => exprDestroy n r.ptr) h r.addrs r.freed)
    (hnodup : (l.addrs ++ (r.addrs ++ [a])).Nodup) :
    Frees (fun n h' => (do
      let h ← exprDestroy n l.ptr h'
      let r ← readRight h (some a)
      exprDestroy n r h) >>= free (some a)) h
      (l.addrs ++ (r.addrs ++ [a])) (l.freed ++ (r.freed ++ [a])) := by
  have hfree := hr.seq (frees_free ha) (disjoint_of_nodup (List.nodup_append.mp hnodup).2.1)
  have hread : Frees (fun n h' => readRight h' (some a) >>= fun r =>
      exprDestroy n r h' >>= free (some a)) h (r.addrs ++ [a]) (r.freed ++ [a]) :=
    .read (x := r.ptr) hfree
      fun h' hh' => hright h' (hh' a (List.mem_append_right _ List.mem_cons_self))
  refine (hl.seq hread (disjoint_of_nodup hnodup)).congr fun h' _ fuel => ?_
  simp only [Option.bind_eq_bind, Option.bind_assoc]

mutual

theorem StmtTree.frees : ∀ (t : StmtTree), t.On h → t.addrs.Nodup →
    Frees (fun n => stmtDestroy n t.ptr) h t.addrs t.freed
  | .nil, _, _ => .succ (frees_nothing fun _ _ => if_pos rfl)
  | .node a val nxt, ⟨ha, hval, hnxt⟩, hnodup => by
    obtain ⟨hnodup₁, hnodup₂, -⟩ := List.nodup_append.mp hnodup
    have hread (h' : Heap) (hh' : h' a = h a) :
        readStmt h' (some a) = some (val.val, nxt.ptr) := by
      rw [readStmt, Option.bind_some, hh', ha]
    have hfree := (frees_destroyIf (nxt.frees hnxt (List.nodup_append.mp hnodup₂).1)
      StmtTree.nil_of_ptr).seq (frees_free ha) (disjoint_of_nodup hnodup₂)
    refine .succ (frees_guarded (.read (x := (val.val, nxt.ptr)) (.seq (val.frees hval hnodup₁)
      (.read (x := (val.val, nxt.ptr)) hfree ?_) (disjoint_of_nodup hnodup)) ?_))
    · exact fun h' hh' => hread h' (hh' a (List.mem_append_right _ List.mem_cons_self))
    · exact fun h' hh' => hread h' (hh' a mem_last)

theorem StmtValTree.frees : ∀ (val : StmtValTree), val.On h → val.addrs.Nodup →
    Frees (fun n => destroyStmtVal (stmtDestroy n) (exprDestroy n) (wordlistDestroy n) val.val) h
      val.addrs val.freed
  | .null, _, _ => frees_nothing fun _ _ => rfl
  | .pipeline, _, _ => frees_nothing fun _ _ => rfl
  | .simple _ w, hw, hnodup => frees_words w hw hnodup
  | .emptyIf, _, _ => frees_nothing fun _ _ => rfl
  | .ifStmt i c t f, ⟨hi, hc, ht, hf⟩, hnodup => by
    obtain ⟨hnodup₁, hnodup₂, -⟩ := List.nodup_append.mp hnodup
    obtain ⟨hnodup₃, hnodup₄, -⟩ := List.nodup_append.mp hnodup₂
    exact frees_ifStmt hi (c.frees hc hnodup₁) (t.frees ht hnodup₃)
      (f.frees hf (List.nodup_append.mp hnodup₄).1) hnodup
  | .emptyWhile, _, _ => frees_nothing fun _ _ => rfl
  | .whileStmt w c e, ⟨hw, hc, he⟩, hnodup => by
    obtain ⟨hnodup₁, hnodup₂, -⟩ := List.nodup_append.mp hnodup
    exact frees_whileStmt hw (c.frees hc hnodup₁) (e.frees he (List.nodup_append.mp hnodup₂).1)
      hnodup
  | .expr e, he, hnodup => e.frees he hnodup

theorem ExprTree.frees : ∀ (e : ExprTree), e.On h → e.addrs.Nodup →
    Frees (fun n => exprDestroy n e.ptr) h e.addrs e.freed
  | .nil, _, _ => .succ (frees_nothing fun _ _ => if_pos rfl)
  | .null a, ha, _ => frees_expr ha List.mem_cons_self
      ((frees_nothing fun _ _ => rfl).seq (frees_free ha) fun _ hb => absurd hb List.not_mem_nil)
  | .binary a op l r, ⟨ha, hl, hr⟩, hnodup => by
    obtain ⟨hnodup₁, hnodup₂, -⟩ := List.nodup_append.mp hnodup
    refine frees_expr ha mem_last (frees_operands ha (fun h' hh' => ?_) (l.frees hl hnodup₁)
      (r.frees hr (List.nodup_append.mp hnodup₂).1) hnodup)
    rw [readRight, readExpr, Option.bind_some, hh', ha]
  | .assign a l r, ⟨ha, hl, hr⟩, hnodup => by
    obtain ⟨hnodup₁, hnodup₂, -⟩ := List.nodup_append.mp hnodup
    refine frees_expr ha mem_last (frees_operands ha (fun h' hh' => ?_) (l.frees hl hnodup₁)
      (r.frees hr (List.nodup_append.mp hnodup₂).1) hnodup)
    rw [readRight, readExpr, Option.bind_some, hh', ha]
  | .notOp a e, ⟨ha, he⟩, hnodup =>
    frees_expr ha (List.mem_append_right _ List.mem_cons_self)
      ((e.frees he (List.nodup_append.mp hnodup).1).seq (frees_free ha) (disjoint_of_nodup hnodup))
  | .int a _, ha, _ => frees_expr ha List.mem_cons_self
      ((frees_nothing fun _ _ => rfl).seq (frees_free ha) fun _ hb => absurd hb List.not_mem_nil)
  | .word a w, ⟨ha, s, hs⟩, hnodup =>
    frees_expr ha (List.mem_append_right [w] List.mem_cons_self)
      ((frees_free hs).seq (frees_free ha) (disjoint_of_nodup hnodup))
  | .stmt a s, ⟨ha, hs⟩, hnodup =>
    frees_expr ha (List.mem_append_right _ List.mem_cons_self)
      ((s.frees hs (List.nodup_append.mp hnodup).1).seq (frees_free ha) (disjoint_of_nodup hnodup))

end

end

/-! ## What is left -/

mutual

theorem StmtTree.freed_sublist : ∀ t : StmtTree, t.freed.Sublist t.addrs
  | .nil => .refl _
  | .node _ val nxt => val.freed_sublist.append (nxt.freed_sublist.append (.refl _))

theorem StmtValTree.freed_sublist : ∀ val : StmtValTree, val.freed.Sublist val.addrs
  | .null => .refl _
  | .pipeline => .refl _
  | .simple _ _ => .refl _
  | .emptyIf => .refl _
  | .ifStmt _ c t f =>
    c.freed_sublist.append (t.freed_sublist.append (f.freed_sublist.append (.refl _)))
  | .emptyWhile => .refl _
  | .whileStmt _ _ e => List.sublist_append_of_sublist_right (e.freed_sublist.append (.refl _))
  | .expr e => e.freed_sublist

theorem ExprTree.freed_sublist : ∀ e : ExprTree, e.freed.Sublist e.addrs
  | .nil => .refl _
  | .null _ => .refl _
  | .binary _ _ l r => l.freed_sublist.append (r.freed_sublist.append (.refl _))
  | .assign _ l r => l.freed_sublist.append (r.freed_sublist.append (.refl _))
  | .notOp _ e => e.freed_sublist.append (.refl _)
  | .int _ _ => .refl _
  | .word _ _ => .refl _
  | .stmt _ s => s.freed_sublist.append (.refl _)

end

/-- Two sublists are the whole lists when together they are. -/
theorem append_eq_append_iff_of_sublist {as as' bs bs' : List Nat} (has : as'.Sublist as)
    (hbs : bs'.Sublist bs) : as' ++ bs' = as ++ bs ↔ as' = as ∧ bs' = bs := by
  constructor
  · intro heq
    have hlength := congrArg List.length heq
    rw [List.length_append, List.length_append] at hlength
    have hlea := has.length_le
    have hleb := hbs.length_le
    exact ⟨has.eq_of_length (by omega), hbs.eq_of_length (by omega)⟩
  · rintro ⟨rfl, rfl⟩
    rfl

theorem StmtTree.addrs_ne_nil {t : StmtTree} (ht : t ≠ .nil) : t.addrs ≠ [] := by
  cases t with
  | nil => exact absurd rfl ht
  | node a val nxt => simp [StmtTree.addrs]

mutual

/-- Everything is freed exactly when no `while` has a condition. -/
theorem StmtTree.freed_eq_iff : ∀ t : StmtTree, t.freed = t.addrs ↔ t.NoCondition
  | .nil => ⟨fun _ => trivial, fun _ => rfl⟩
  | .node a val nxt => by
    rw [StmtTree.freed, StmtTree.addrs, StmtTree.NoCondition,
      append_eq_append_iff_of_sublist val.freed_sublist (nxt.freed_sublist.append (.refl _)),
      List.append_left_inj, val.freed_eq_iff, nxt.freed_eq_iff]

theorem StmtValTree.freed_eq_iff : ∀ val : StmtValTree, val.freed = val.addrs ↔ val.NoCondition
  | .null => ⟨fun _ => trivial, fun _ => rfl⟩
  | .pipeline => ⟨fun _ => trivial, fun _ => rfl⟩
  | .simple _ _ => ⟨fun _ => trivial, fun _ => rfl⟩
  | .emptyIf => ⟨fun _ => trivial, fun _ => rfl⟩
  | .ifStmt i c t f => by
    rw [StmtValTree.freed, StmtValTree.addrs, StmtValTree.NoCondition,
      append_eq_append_iff_of_sublist c.freed_sublist
        (t.freed_sublist.append (f.freed_sublist.append (.refl _))),
      append_eq_append_iff_of_sublist t.freed_sublist (f.freed_sublist.append (.refl _)),
      List.append_left_inj, c.freed_eq_iff, t.freed_eq_iff, f.freed_eq_iff]
  | .emptyWhile => ⟨fun _ => trivial, fun _ => rfl⟩
  | .whileStmt w c e => by
    rw [StmtValTree.freed, StmtValTree.addrs, StmtValTree.NoCondition,
      ← List.nil_append (e.freed ++ [w]),
      append_eq_append_iff_of_sublist (List.nil_sublist _) (e.freed_sublist.append (.refl _)),
      List.append_left_inj, e.freed_eq_iff]
    refine and_congr_left fun _ => ?_
    constructor
    · exact fun hnil => by_contra fun hne => c.addrs_ne_nil hne hnil.symm
    · rintro rfl
      rfl
  | .expr e => e.freed_eq_iff

theorem ExprTree.freed_eq_iff : ∀ e : ExprTree, e.freed = e.addrs ↔ e.NoCondition
  | .nil => ⟨fun _ => trivial, fun _ => rfl⟩
  | .null _ => ⟨fun _ => trivial, fun _ => rfl⟩
  | .binary a _ l r => by
    rw [ExprTree.freed, ExprTree.addrs, ExprTree.NoCondition,
      append_eq_append_iff_of_sublist l.freed_sublist (r.freed_sublist.append (.refl _)),
      List.append_left_inj, l.freed_eq_iff, r.freed_eq_iff]
  | .assign a l r => by
    rw [ExprTree.freed, ExprTree.addrs, ExprTree.NoCondition,
      append_eq_append_iff_of_sublist l.freed_sublist (r.freed_sublist.append (.refl _)),
      List.append_left_inj, l.freed_eq_iff, r.freed_eq_iff]
  | .notOp a e => by
    rw [ExprTree.freed, ExprTree.addrs, ExprTree.NoCondition, List.append_left_inj, e.freed_eq_iff]
  | .int _ _ => ⟨fun _ => trivial, fun _ => rfl⟩
  | .word _ _ => ⟨fun _ => trivial, fun _ => rfl⟩
  | .stmt a s => by
    rw [ExprTree.freed, ExprTree.addrs, ExprTree.NoCondition, List.append_left_inj, s.freed_eq_iff]

end

theorem destroyed_iff_freed_eq {h : Heap} {t : StmtTree} (ht : IsTree h t) :
    Destroyed h t ↔ t.freed = t.addrs := by
  rw [Destroyed, (t.frees ht.on ht.nodup).all_iff]
  constructor
  · exact fun hsub => t.freed_sublist.eq_of_length_le (ht.nodup.length_le_of_subset hsub)
  · exact fun heq => heq ▸ fun _ ha => ha

/-- For every tree of statements and expressions in every heap: `stmt_destroy` ends and frees each
node of the tree once and nothing else if and only if no `while` in the tree has a
condition. -/
theorem stmtDestroy_exact_iff (h : Heap) (t : StmtTree) (ht : IsTree h t) :
    Destroyed h t ↔ t.NoCondition := by
  rw [destroyed_iff_freed_eq ht, t.freed_eq_iff]

/-- `if $((1)); then $((1)); fi`, from the parser. -/
def ifOne : SourceList :=
  .one (.ifThen (.one (.simple (.expr 0))) (.one (.simple (.expr 1))))

def ifOneTree : StmtTree :=
  .node 4 (.ifStmt 5 (.node 2 (.expr (.int 0 1)) .nil) .nil (.node 3 (.expr (.int 1 1)) .nil)) .nil

theorem stmtDestroy_exact_ifOne : Destroyed (ifOne.reduce (ones 2)).2.heap ifOneTree :=
  (stmtDestroy_exact_iff (ifOne.reduce (ones 2)).2.heap ifOneTree
    ⟨⟨rfl, ⟨rfl, ⟨rfl, rfl, trivial⟩, trivial, rfl, rfl, trivial⟩, trivial⟩, by decide⟩).mpr
      ⟨⟨⟨trivial, trivial⟩, trivial, trivial, trivial⟩, trivial⟩

/-- `while $((1)); do $((1)); done`, from the parser. -/
def whileOne : SourceList :=
  .one (.whileDo (.one (.simple (.expr 0))) (.one (.simple (.expr 1))))

def whileOneTree : StmtTree :=
  .node 4 (.whileStmt 5 (.node 2 (.expr (.int 0 1)) .nil) (.node 3 (.expr (.int 1 1)) .nil)) .nil

/-- The statement and the expression of the condition, at 2 and 0, are left. -/
theorem stmtDestroy_not_exact :
    (whileOne.reduce (ones 2)).1 = 4 ∧ IsTree (whileOne.reduce (ones 2)).2.heap whileOneTree ∧
    ((stmtDestroy 5 (some 4) (whileOne.reduce (ones 2)).2.heap).map fun h =>
      (List.range 6).map fun a => (h a).isSome) = some [true, false, true, false, false, false] ∧
    ¬ Destroyed (whileOne.reduce (ones 2)).2.heap whileOneTree := by
  have htree : IsTree (whileOne.reduce (ones 2)).2.heap whileOneTree :=
    ⟨⟨rfl, ⟨rfl, ⟨rfl, rfl, trivial⟩, rfl, rfl, trivial⟩, trivial⟩, by decide⟩
  refine ⟨rfl, htree, by decide, ?_⟩
  rw [destroyed_iff_freed_eq htree]
  decide

end Ko6.Uapp
