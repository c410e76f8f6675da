import Ko6.Common.Itoa
import Ko6.Uapp.Stmt

set_option autoImplicit false

/-!
# Uapp: the values of expressions

`kshell_expr_eval` on the expressions that the actions of the grammar build.  It adds the
left operand to itself, divides the right one by itself, gives the operand of `!` back as it
is, and the left operand of `||` when that is not zero.  `usual` is what the operators mean;
`INT_MIN / -1` wraps there like the other operations.

The environment is what `hto_get` finds in the table of the variables.
-/

namespace Ko6.Uapp

open Ko6.Common

/-! ## Functions -/

/-- The variables: a name, and the string that is its value. -/
abbrev Env : Type := CStr → Option CStr

/-- The `int` of a comparison or of a logical operator. -/
def cbool (p : Prop) [Decidable p] : BitVec 32 := if p then 1 else 0

/-- The cases of `kshell_expr_eval` for two operands, with `eval` for the recursive calls. -/
def binaryEval (eval : Ptr → Option (BitVec 32)) (l r : Ptr) : BinaryOp → Option (BitVec 32)
  | .andOp => do
    let retval ← eval l
    if retval ≠ 0 then
      let right ← eval r
      some (cbool (retval ≠ 0 ∧ right ≠ 0))
    else some retval
  | .orOp => do
    let retval ← eval l
    if retval = 0 then
      let right ← eval r
      some (cbool (retval ≠ 0 ∨ right ≠ 0))
    else some retval
  | .plusOp => do
    let x ← eval l
    let y ← eval l
    some (x + y)
  | .minusOp => do
    let x ← eval l
    let y ← eval r
    some (x - y)
  | .multOp => do
    let x ← eval l
    let y ← eval r
    some (x * y)
  | .divOp => do
    let retval ← eval r
    if retval ≠ 0 then
      let x ← eval r
      some (x.sdiv retval)
    else some 0
  | .eqOp => do
    let x ← eval l
    let y ← eval r
    some (cbool (x = y))
  | .neqOp => do
    let x ← eval l
    let y ← eval r
    some (cbool (x ≠ y))
  | .ltOp => do
    let x ← eval l
    let y ← eval r
    some (cbool (x.toInt < y.toInt))
  | .gtOp => do
    let x ← eval l
    let y ← eval r
    some (cbool (x.toInt > y.toInt))
  | .leqOp => do
    let x ← eval l
    let y ← eval r
    some (cbool (x.toInt ≤ y.toInt))
  | .geqOp => do
    let x ← eval l
    let y ← eval r
    some (cbool (x.toInt ≥ y.toInt))

/-- The case `WORD_EXPR`. -/
def wordEval (heap : Heap) (env : Env) (w : Ptr) : Option (BitVec 32) :=
  match w.bind heap with
  | some (.str name) =>
    match env name with
    | none => some 0
    | some v => some (atoi v.chars)
  | _ => none

/-- The `switch` of `kshell_expr_eval`. -/
def exprCase (heap : Heap) (env : Env) (eval : Ptr → Option (BitVec 32)) :
    ExprVal → Option (BitVec 32)
  | .binary op l r => binaryEval eval l r op
  | .assign _ _ => some 0
  | .notOp e => eval e
  | .int v => some v
  | .word w => wordEval heap env w
  | .stmt _ => some 0
  | .null => some 0

/-- `kshell_expr_eval`, in at most `fuel` calls inside each other; `none` also for an address
that is not of an expression. -/
def kshellExprEval (heap : Heap) (env : Env) : Nat → Ptr → Option (BitVec 32)
  | 0, _ => none
  | _ + 1, none => some 0
  | fuel + 1, some expr =>
    match heap expr with
    | some (.expr val) => exprCase heap env (kshellExprEval heap env fuel) val
    | _ => none

/-! ## The grammar -/

/-- An expression without assignments, by the rules `expr` to `factor`. -/
inductive Expr where
  | num (v : BitVec 32)
  | word (w : CStr)
  | binary (op : BinaryOp) (l r : Expr)
  | notOp (e : Expr)
  deriving DecidableEq

/-- The expression and the expressions in it. -/
def Expr.parts : Expr → List Expr
  | .num v => [.num v]
  | .word w => [.word w]
  | .binary op l r => .binary op l r :: (l.parts ++ r.parts)
  | .notOp e => .notOp e :: e.parts

/-- With enough fuel `kshell_expr_eval` returns `v`. -/
def EvalsTo (heap : Heap) (env : Env) (expr : Ptr) (v : BitVec 32) : Prop :=
  ∃ n, ∀ fuel, n ≤ fuel → kshellExprEval heap env fuel expr = some v

/-- The expression is at `a`, with all its nodes below `n`. -/
def ExprAt (heap : Heap) (n : Nat) : Expr → Nat → Prop
  | .num v, a => a < n ∧ heap a = some (.expr (.int v))
  | .word w, a => a < n ∧ ∃ p, p < n ∧ heap a = some (.expr (.word (some p))) ∧
      heap p = some (.str w)
  | .binary op l r, a => a < n ∧ ∃ x y, heap a = some (.expr (.binary op (some x) (some y))) ∧
      ExprAt heap n l x ∧ ExprAt heap n r y
  | .notOp e, a => a < n ∧ ∃ x, heap a = some (.expr (.notOp (some x))) ∧ ExprAt heap n e x

/-- What is built later leaves an expression where it is. -/
theorem ExprAt.grows {s s' : Parser} (h : Grows s s') {e : Expr} {a : Nat}
    (he : ExprAt s.heap s.next e a) : ExprAt s'.heap s'.next e a := by
  induction e generalizing a with
  | num v => exact ⟨Nat.lt_of_lt_of_le he.1 h.next_le, (h.old a he.1).trans he.2⟩
  | word w =>
    obtain ⟨ha, p, hp, hword, hstr⟩ := he
    exact ⟨Nat.lt_of_lt_of_le ha h.next_le, p, Nat.lt_of_lt_of_le hp h.next_le,
      (h.old a ha).trans hword, (h.old p hp).trans hstr⟩
  | binary op l r ihl ihr =>
    obtain ⟨ha, x, y, hop, hl, hr⟩ := he
    exact ⟨Nat.lt_of_lt_of_le ha h.next_le, x, y, (h.old a ha).trans hop, ihl hl, ihr hr⟩
  | notOp e ih =>
    obtain ⟨ha, x, hop, hx⟩ := he
    exact ⟨Nat.lt_of_lt_of_le ha h.next_le, x, (h.old a ha).trans hop, ih hx⟩

section
variable {heap : Heap} {env : Env} {n : Nat}

/-- There is one value. -/
theorem EvalsTo.unique {expr : Ptr} {v w : BitVec 32} (hv : EvalsTo heap env expr v)
    (hw : EvalsTo heap env expr w) : v = w := by
  obtain ⟨n, hn⟩ := hv
  obtain ⟨m, hm⟩ := hw
  exact Option.some.inj ((hn (n + m) (Nat.le_add_right _ _)).symm.trans
    (hm (n + m) (Nat.le_add_left _ _)))

end

section
variable {env : Env} {x y : BitVec 32}

end

end Ko6.Uapp
