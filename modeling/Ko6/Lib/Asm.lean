import Mathlib.Logic.Function.Basic
import Mathlib.Data.List.Induction
import Mathlib.Data.List.Nodup
import Mathlib.Tactic.Common

set_option autoImplicit false

/-!
# Lib: texts of instructions

A text is a list of instructions, and a label is the place of an instruction in it.  `Leads`
tells that the execution from a place comes to the end of the text as it should, whatever the
functions called on the way do within their contract.
-/

namespace Ko6.Lib.Asm

/-- Where the execution goes on after an instruction: with the instruction behind it, at a
label of the same text, or at an address outside; `call` comes back to the instruction
behind it. -/
inductive Next (A : Type) where
  | next
  | goto (label : Nat)
  | call (addr : A)
  | leave (addr : A)
  deriving DecidableEq

variable {I σ A : Type}

/-- From the place `n` and the state `s` the text is left at an address and in a state of `Q`.
`callee addr s s'` tells what a call of the function at `addr` may make of `s`. -/
inductive Leads (exec : I → σ → σ × Next A) (callee : A → σ → σ → Prop) (text : List I)
    (Q : A → σ → Prop) : Nat → σ → Prop where
  | next {n : Nat} {i : I} {s s' : σ} (hi : text[n]? = some i) (h : exec i s = (s', .next))
      (hrest : Leads exec callee text Q (n + 1) s') : Leads exec callee text Q n s
  | goto {n m : Nat} {i : I} {s s' : σ} (hi : text[n]? = some i) (h : exec i s = (s', .goto m))
      (hrest : Leads exec callee text Q m s') : Leads exec callee text Q n s
  | call {n : Nat} {i : I} {s s' : σ} {addr : A} (hi : text[n]? = some i)
      (h : exec i s = (s', .call addr))
      (hrest : ∀ s'', callee addr s' s'' → Leads exec callee text Q (n + 1) s'') :
      Leads exec callee text Q n s
  | leave {n : Nat} {i : I} {s s' : σ} {addr : A} (hi : text[n]? = some i)
      (h : exec i s = (s', .leave addr)) (hq : Q addr s') : Leads exec callee text Q n s

/-- One way the text is left, from the place `n` and the state `s`, at the address and in the
state given. -/
inductive Exits (exec : I → σ → σ × Next A) (callee : A → σ → σ → Prop) (text : List I) :
    Nat → σ → A → σ → Prop where
  | next {n : Nat} {i : I} {s s' t : σ} {addr : A} (hi : text[n]? = some i)
      (h : exec i s = (s', .next)) (hrest : Exits exec callee text (n + 1) s' addr t) :
      Exits exec callee text n s addr t
  | goto {n m : Nat} {i : I} {s s' t : σ} {addr : A} (hi : text[n]? = some i)
      (h : exec i s = (s', .goto m)) (hrest : Exits exec callee text m s' addr t) :
      Exits exec callee text n s addr t
  | call {n : Nat} {i : I} {s s' s'' t : σ} {fn addr : A} (hi : text[n]? = some i)
      (h : exec i s = (s', .call fn)) (hcall : callee fn s' s'')
      (hrest : Exits exec callee text (n + 1) s'' addr t) : Exits exec callee text n s addr t
  | leave {n : Nat} {i : I} {s s' : σ} {addr : A} (hi : text[n]? = some i)
      (h : exec i s = (s', .leave addr)) : Exits exec callee text n s addr s'

/-- The state behind instructions that all go on with the one behind them. -/
def block (exec : I → σ → σ × Next A) (is : List I) (s : σ) : σ :=
  is.foldl (fun s i => (exec i s).1) s

variable {exec : I → σ → σ × Next A} {callee : A → σ → σ → Prop} {text : List I}
  {Q : A → σ → Prop} {n : Nat} {s : σ}

@[simp] theorem block_nil : block exec [] s = s := rfl

@[simp] theorem block_cons (i : I) (is : List I) :
    block exec (i :: is) s = block exec is (exec i s).1 := rfl

theorem block_append (is js : List I) :
    block exec (is ++ js) s = block exec js (block exec is s) := List.foldl_append ..

/-- The instruction always goes on with the one behind it. -/
def Plain (exec : I → σ → σ × Next A) (i : I) : Prop := ∀ s, (exec i s).2 = .next

/-- Plain instructions are executed one after the other. -/
theorem Leads.block (is : List I) (hplain : ∀ i ∈ is, Plain exec i)
    (htext : is <+: text.drop n)
    (h : Leads exec callee text Q (n + is.length) (block exec is s)) :
    Leads exec callee text Q n s := by
  induction is generalizing n s with
  | nil => exact h
  | cons i is ih =>
    obtain ⟨rest, hrest⟩ := htext
    have hi : text[n]? = some i := by
      have hget : (text.drop n)[0]? = text[n]? := by rw [List.getElem?_drop, Nat.add_zero]
      rw [← hget, ← hrest]
      rfl
    have htail : is <+: text.drop (n + 1) := by
      refine ⟨rest, ?_⟩
      rw [← List.tail_drop, ← hrest]
      rfl
    have hnext := hplain i List.mem_cons_self s
    refine .next hi (Prod.ext rfl hnext) (ih (fun j hj => hplain j (List.mem_cons_of_mem i hj))
      htail ?_)
    rw [Nat.add_assoc, Nat.add_comm 1]
    exact h

/-- What is proved of a text holds of every way it is left. -/
theorem Leads.of_exits {addr : A} {t : σ} (h : Leads exec callee text Q n s)
    (he : Exits exec callee text n s addr t) : Q addr t := by
  induction he with
  | next hi hexec _ ih =>
    cases h with
    | next hi' hexec' hrest =>
      obtain rfl := Option.some.inj (hi.symm.trans hi')
      obtain rfl := (Prod.mk.inj (hexec.symm.trans hexec')).1
      exact ih hrest
    | goto hi' hexec' | call hi' hexec' | leave hi' hexec' =>
      obtain rfl := Option.some.inj (hi.symm.trans hi')
      exact absurd (Prod.mk.inj (hexec.symm.trans hexec')).2 (by simp)
  | goto hi hexec _ ih =>
    cases h with
    | goto hi' hexec' hrest =>
      obtain rfl := Option.some.inj (hi.symm.trans hi')
      obtain ⟨rfl, hm⟩ := Prod.mk.inj (hexec.symm.trans hexec')
      obtain rfl := Next.goto.inj hm
      exact ih hrest
    | next hi' hexec' | call hi' hexec' | leave hi' hexec' =>
      obtain rfl := Option.some.inj (hi.symm.trans hi')
      exact absurd (Prod.mk.inj (hexec.symm.trans hexec')).2 (by simp)
  | call hi hexec hcall _ ih =>
    cases h with
    | call hi' hexec' hrest =>
      obtain rfl := Option.some.inj (hi.symm.trans hi')
      obtain ⟨rfl, hfn⟩ := Prod.mk.inj (hexec.symm.trans hexec')
      obtain rfl := Next.call.inj hfn
      exact ih (hrest _ hcall)
    | next hi' hexec' | goto hi' hexec' | leave hi' hexec' =>
      obtain rfl := Option.some.inj (hi.symm.trans hi')
      exact absurd (Prod.mk.inj (hexec.symm.trans hexec')).2 (by simp)
  | leave hi hexec =>
    cases h with
    | leave hi' hexec' hq =>
      obtain rfl := Option.some.inj (hi.symm.trans hi')
      obtain ⟨rfl, haddr⟩ := Prod.mk.inj (hexec.symm.trans hexec')
      obtain rfl := Next.leave.inj haddr
      exact hq
    | next hi' hexec' | goto hi' hexec' | call hi' hexec' =>
      obtain rfl := Option.some.inj (hi.symm.trans hi')
      exact absurd (Prod.mk.inj (hexec.symm.trans hexec')).2 (by simp)

/-- When all functions called return, the text is left. -/
theorem Leads.exists_exits (h : Leads exec callee text Q n s)
    (hcall : ∀ i ∈ text, ∀ s s' fn, exec i s = (s', .call fn) → ∃ s'', callee fn s' s'') :
    ∃ addr t, Exits exec callee text n s addr t ∧ Q addr t := by
  induction h with
  | next hi hexec _ ih =>
    obtain ⟨addr, t, he, hq⟩ := ih
    exact ⟨addr, t, .next hi hexec he, hq⟩
  | goto hi hexec _ ih =>
    obtain ⟨addr, t, he, hq⟩ := ih
    exact ⟨addr, t, .goto hi hexec he, hq⟩
  | @call n i s s' fn hi hexec _ ih =>
    obtain ⟨s'', hs⟩ := hcall i (List.mem_of_getElem? hi) s s' fn hexec
    obtain ⟨addr, t, he, hq⟩ := ih s'' hs
    exact ⟨addr, t, .call hi hexec hs he, hq⟩
  | leave hi hexec hq => exact ⟨_, _, .leave hi hexec, hq⟩

/-- What is proved for some calls holds for calls that do less. -/
theorem Leads.mono {callee' : A → σ → σ → Prop} {Q' : A → σ → Prop}
    (h : Leads exec callee text Q n s) (hcall : ∀ addr s s', callee' addr s s' → callee addr s s')
    (hq : ∀ addr s, Q addr s → Q' addr s) : Leads exec callee' text Q' n s := by
  induction h with
  | next hi h _ ih => exact .next hi h ih
  | goto hi h _ ih => exact .goto hi h ih
  | call hi h _ ih => exact .call hi h fun s'' hs => ih s'' (hcall _ _ _ hs)
  | leave hi h hq' => exact .leave hi h (hq _ _ hq')

/-! ## Many stores, many loads -/

/-- A test of all members of a list, by evaluation of the list alone. -/
theorem forall_mem_of_all {α : Type} {P : α → Prop} [DecidablePred P] {l : List α}
    (h : (l.all fun x => decide (P x)) = true) : ∀ x ∈ l, P x :=
  fun x hx => of_decide_eq_true (List.all_eq_true.mp h x hx)

theorem forall_mem₂_of_all {α β : Type} {P : α → β → Prop} [∀ x y, Decidable (P x y)]
    {l : List α} {m : List β} (h : (l.all fun x => m.all fun y => decide (P x y)) = true) :
    ∀ x ∈ l, ∀ y ∈ m, P x y :=
  fun x hx y hy => of_decide_eq_true (List.all_eq_true.mp (List.all_eq_true.mp h x hx) y hy)

section
variable {K V P : Type} [DecidableEq K] {f : K → V} {key : P → K} {val : P → V} {ps : List P}

/-- Values written one after the other to different keys are all there afterwards. -/
theorem foldl_update_of_mem (key : P → K) (hnd : (ps.map key).Nodup) {p : P} (hp : p ∈ ps) :
    ps.foldl (fun f p => Function.update f (key p) (val p)) f (key p) = val p := by
  induction ps using List.reverseRecOn with
  | nil => exact absurd hp (by simp)
  | append_singleton ps q ih =>
    rw [List.foldl_append, List.foldl_cons, List.foldl_nil]
    rw [List.map_append, List.nodup_append'] at hnd
    rcases List.mem_append.mp hp with hp | hp
    · have hne : key p ≠ key q := by
        intro heq
        exact hnd.2.2 (List.mem_map_of_mem hp) (by simp [heq])
      rw [Function.update_of_ne hne, ih hnd.1 hp]
    · rw [List.mem_singleton.mp hp, Function.update_self]

theorem foldl_update_of_forall_ne {k : K} (hk : ∀ p ∈ ps, k ≠ key p) :
    ps.foldl (fun f p => Function.update f (key p) (val p)) f k = f k := by
  induction ps generalizing f with
  | nil => rfl
  | cons q ps ih =>
    rw [List.foldl_cons, ih fun p hp => hk p (List.mem_cons_of_mem q hp),
      Function.update_of_ne (hk q List.mem_cons_self)]

end

end Ko6.Lib.Asm
