import Ko6.Common.Cstd

set_option autoImplicit false

/-!
# Uapp: the statements and expressions of `kshell`

The nodes that `uapp/kshell/stmt.c` and `wordlist.c` build, on one heap, and the state of
the parser: the heap and the global variable `chkpnt`.  `malloc` does not fail and gives the
addresses in turn; a free address has no object.  The type of a node and the member of its
union that goes with it are one value.
-/

namespace Ko6.Uapp

open Ko6.Common

/-! ## Nodes -/

/-- A pointer, `none` for `NULL`. -/
abbrev Ptr : Type := Option Nat

/-- The operators of `enum expr_type` with two operands, but for the assignment. -/
inductive BinaryOp where
  | andOp | orOp
  | plusOp | minusOp | multOp | divOp
  | eqOp | neqOp
  | ltOp | gtOp | leqOp | geqOp
  deriving DecidableEq

/-- `struct expr`. -/
inductive ExprVal where
  | null
  | binary (op : BinaryOp) (l r : Ptr)
  | assign (l r : Ptr)
  | notOp (e : Ptr)
  | int (v : BitVec 32)
  | word (w : Ptr)
  | stmt (s : Ptr)
  deriving DecidableEq

/-- The types of a statement with a list of words. -/
inductive SimpleType where
  | builtIn | exec | envAssign
  deriving DecidableEq

/-- The type and the union of `struct stmt`. -/
inductive StmtVal where
  | null
  | whileStmt (w : Ptr)
  | ifStmt (i : Ptr)
  | pipeline
  | simple (t : SimpleType) (w : Ptr)
  | expr (e : Ptr)
  deriving DecidableEq

/-- What is at an address. -/
inductive Obj where
  | stmt (val : StmtVal) (nxt : Ptr)
  | ifStmt (condition branch0 branch1 : Ptr)
  | whileStmt (condition execute : Ptr)
  | expr (val : ExprVal)
  | wordlist (word nxt : Ptr)
  | str (s : CStr)
  deriving DecidableEq

/-- The objects that are allocated. -/
abbrev Heap : Type := Nat → Option Obj

/-- The state of the parser; `next` is what `malloc` gives next. -/
structure Parser where
  heap : Heap
  next : Nat
  chkpnt : Ptr

/-- No node. -/
def parserStart : Parser where
  heap := fun _ => none
  next := 0
  chkpnt := none

namespace Parser

def malloc (s : Parser) (o : Obj) : Nat × Parser :=
  (s.next, { s with heap := Function.update s.heap s.next (some o), next := s.next + 1 })

/-- A write to the object at `a`, which is there whenever the parser writes. -/
def modify (s : Parser) (a : Nat) (f : Obj → Obj) : Parser :=
  { s with heap := Function.update s.heap a ((s.heap a).map f) }

end Parser

/-! ## Statements -/

/-- `stmt_create`. -/
def stmtCreate (s : Parser) : Nat × Parser := s.malloc (.stmt .null none)

/-- `stmt->t` and `stmt->stmt`. -/
def Obj.setVal (val : StmtVal) : Obj → Obj
  | .stmt _ nxt => .stmt val nxt
  | o => o

/-- `stmt->nxt`. -/
def Obj.setNxt (nxt : Ptr) : Obj → Obj
  | .stmt val _ => .stmt val nxt
  | o => o

/-- `stmt_set_expr`. -/
def stmtSetExpr (stmt expr : Ptr) (s : Parser) : Bool × Parser :=
  match stmt, expr with
  | some stmt, some expr => (true, s.modify stmt (Obj.setVal (.expr (some expr))))
  | _, _ => (false, s)

/-- `stmt_set_simple`. -/
def stmtSetSimple (stmt w : Ptr) (t : SimpleType) (s : Parser) : Bool × Parser :=
  match stmt, w with
  | some stmt, some w => (true, s.modify stmt (Obj.setVal (.simple t (some w))))
  | _, _ => (false, s)

/-- `if_stmt_create`. -/
def ifStmtCreate (s : Parser) : Nat × Parser := s.malloc (.ifStmt none none none)

/-- `*new`, of an `if`. -/
def Obj.setIf (condition branch0 branch1 : Ptr) : Obj → Obj
  | .ifStmt _ _ _ => .ifStmt condition branch0 branch1
  | o => o

/-- `stmt_set_if_stmt`. -/
def stmtSetIfStmt (stmt cond tCase fCase : Ptr) (s : Parser) : Bool × Parser :=
  match stmt, tCase, cond with
  | some stmt, some tCase, some cond =>
    let (new, s) := ifStmtCreate s
    let s := s.modify new (Obj.setIf (some cond) fCase (some tCase))
    (true, s.modify stmt (Obj.setVal (.ifStmt (some new))))
  | _, _, _ => (false, s)

/-- `while_stmt_create`. -/
def whileStmtCreate (s : Parser) : Nat × Parser := s.malloc (.whileStmt none none)

/-- `*new`, of a `while`. -/
def Obj.setWhile (condition execute : Ptr) : Obj → Obj
  | .whileStmt _ _ => .whileStmt condition execute
  | o => o

/-- `stmt_set_while_stmt`. -/
def stmtSetWhileStmt (stmt cond tCase : Ptr) (s : Parser) : Bool × Parser :=
  match stmt, cond, tCase with
  | some stmt, some cond, some tCase =>
    let (new, s) := whileStmtCreate s
    let s := s.modify new (Obj.setWhile (some cond) (some tCase))
    (true, s.modify stmt (Obj.setVal (.whileStmt (some new))))
  | _, _, _ => (false, s)

/-- `stmt_set_next`. -/
def stmtSetNext (stmt nxt : Ptr) (s : Parser) : Bool × Parser :=
  match stmt, nxt with
  | some stmt, some nxt => (true, s.modify stmt (Obj.setNxt (some nxt)))
  | _, _ => (false, s)

/-! ## Expressions -/

/-- `expr_create`. -/
def exprCreate (s : Parser) : Nat × Parser := s.malloc (.expr .null)

/-- `*expr`. -/
def Obj.setExpr (val : ExprVal) : Obj → Obj
  | .expr _ => .expr val
  | o => o

/-- `expr_set_int`. -/
def exprSetInt (expr : Ptr) (v : BitVec 32) (s : Parser) : Bool × Parser :=
  match expr with
  | some expr => (true, s.modify expr (Obj.setExpr (.int v)))
  | none => (false, s)

/-! ## What an action changes -/

/-- Nothing below the first free address of `s` is changed, and what is given later is above. -/
structure Grows (s s' : Parser) : Prop where
  next_le : s.next ≤ s'.next
  old : ∀ a, a < s.next → s'.heap a = s.heap a

section
variable {s s' s'' : Parser} {a : Nat}

theorem Grows.refl (s : Parser) : Grows s s := ⟨Nat.le_refl _, fun _ _ => rfl⟩

theorem Grows.trans (h : Grows s s') (h' : Grows s' s'') : Grows s s'' :=
  ⟨Nat.le_trans h.next_le h'.next_le, fun a ha =>
    (h'.old a (Nat.lt_of_lt_of_le ha h.next_le)).trans (h.old a ha)⟩

theorem grows_malloc (s : Parser) (o : Obj) : Grows s (s.malloc o).2 :=
  ⟨Nat.le_succ _, fun _ ha => Function.update_of_ne (Nat.ne_of_lt ha) _ _⟩

/-- A write to what is new. -/
theorem Grows.modify (h : Grows s s') (ha : s.next ≤ a) (f : Obj → Obj) :
    Grows s (s'.modify a f) :=
  ⟨h.next_le, fun b hb =>
    (Function.update_of_ne (Nat.ne_of_lt (Nat.lt_of_lt_of_le hb ha)) _ _).trans (h.old b hb)⟩

@[simp] theorem malloc_fst (s : Parser) (o : Obj) : (s.malloc o).1 = s.next := rfl

@[simp] theorem malloc_next (s : Parser) (o : Obj) : (s.malloc o).2.next = s.next + 1 := rfl

@[simp] theorem malloc_chkpnt (s : Parser) (o : Obj) : (s.malloc o).2.chkpnt = s.chkpnt := rfl

@[simp] theorem modify_next (s : Parser) (a : Nat) (f : Obj → Obj) :
    (s.modify a f).next = s.next := rfl

@[simp] theorem modify_chkpnt (s : Parser) (a : Nat) (f : Obj → Obj) :
    (s.modify a f).chkpnt = s.chkpnt := rfl

theorem malloc_heap (s : Parser) (o : Obj) (a : Nat) :
    (s.malloc o).2.heap a = if a = s.next then some o else s.heap a :=
  Function.update_apply _ _ _ _

theorem modify_heap (s : Parser) (a b : Nat) (f : Obj → Obj) :
    (s.modify a f).heap b = if b = a then (s.heap a).map f else s.heap b :=
  Function.update_apply _ _ _ _

end

end Ko6.Uapp
