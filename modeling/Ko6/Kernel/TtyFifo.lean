import Ko6.Lib.CircularArray
import Mathlib.Data.BitVec

set_option autoImplicit false

/-!
# Kernel: the character queue of `kernel/klibc.c`

`soclib_tty_isr` puts the characters of the keyboard in a queue with `fifo_push`, and a
thread takes them out with `fifo_pull` in `soclib_tty_read`.  There is no lock.  An
interrupt lets a `fifo_push` run from its beginning to its end between two reads or writes
of `fifo_pull`, so `fifo_pull` is a sequence of steps with one read or one write each, and
`fifo_push` is one step.

Only `fifo_push` writes `pt_write`, and only `fifo_pull` writes `pt_read`, in its last
step.  Up to then the cell that is read counts as one in use and `fifo_push` does not
write it.
-/

namespace Ko6.Kernel

open Ko6.Lib

/-! ## Functions -/

/-- `SUCCESS` and `FAILURE`. -/
inductive FifoResult where
  | success | failure
  deriving DecidableEq

/-- `struct fifo_s`; the entries of `data` are those below `FIFO_DEPTH`. -/
structure Fifo where
  data : Nat → BitVec 8
  ptRead : BitVec 32
  ptWrite : BitVec 32

/-- The next step of `fifo_pull`, with what the steps before have read. -/
inductive PullPc where
  | testRead
  | testWrite (ptRead : BitVec 32)
  | dataIndex
  | data (ptRead : BitVec 32)
  | store (c : BitVec 8)
  | nextIndex
  | next (ptRead : BitVec 32)
  deriving DecidableEq

section
variable (fifoDepth : BitVec 32)

/-- `fifo_push`. -/
def fifoPush (fifo : Fifo) (c : BitVec 8) : FifoResult × Fifo :=
  let ptWriteNext := (fifo.ptWrite + 1) % fifoDepth
  if ptWriteNext ≠ fifo.ptRead then
    let fifo := { fifo with data := Function.update fifo.data fifo.ptWrite.toNat c }
    (.success, { fifo with ptWrite := ptWriteNext })
  else (.failure, fifo)

/-- The queue, the character `*c` of the reader, and the next step of its `fifo_pull`,
with `none` between two calls. -/
structure FifoSys where
  fifo : Fifo
  c : BitVec 8
  pc : Option PullPc

/-- What can be seen of the calls: a character that `fifo_push` has accepted or refused,
one that `fifo_pull` has delivered, and a `fifo_pull` that has failed. -/
inductive FifoEvent where
  | accepted (c : BitVec 8)
  | refused (c : BitVec 8)
  | delivered (c : BitVec 8)
  | empty
  deriving DecidableEq

/-- One read or write of `fifo_pull`; it returns with the last one. -/
def pullStep (s : FifoSys) : PullPc → FifoSys × List FifoEvent
  | .testRead => ({ s with pc := some (.testWrite s.fifo.ptRead) }, [])
  | .testWrite ptRead =>
    if ptRead ≠ s.fifo.ptWrite then ({ s with pc := some .dataIndex }, [])
    else ({ s with pc := none }, [.empty])
  | .dataIndex => ({ s with pc := some (.data s.fifo.ptRead) }, [])
  | .data ptRead => ({ s with pc := some (.store (s.fifo.data ptRead.toNat)) }, [])
  | .store c => ({ s with c := c, pc := some .nextIndex }, [])
  | .nextIndex => ({ s with pc := some (.next s.fifo.ptRead) }, [])
  | .next ptRead =>
    ({ s with fifo := { s.fifo with ptRead := (ptRead + 1) % fifoDepth }, pc := none },
      [.delivered s.c])

/-! ## Runs -/

/-- The interrupt of `soclib_tty_isr` with the character `c`, a call of `fifo_pull`, and
its next read or write. -/
inductive FifoAct where
  | push (c : BitVec 8)
  | pull
  | access
  deriving DecidableEq

def fifoStep (s : FifoSys) : FifoAct → Option (FifoSys × List FifoEvent)
  | .push c =>
    match fifoPush fifoDepth s.fifo c with
    | (.success, fifo) => some ({ s with fifo := fifo }, [.accepted c])
    | (.failure, fifo) => some ({ s with fifo := fifo }, [.refused c])
  | .pull => if s.pc = none then some ({ s with pc := some .testRead }, []) else none
  | .access => s.pc.map (pullStep fifoDepth s)

/-- The acts one after another, with all that can be seen. -/
def fifoRun : List FifoAct → FifoSys → Option (FifoSys × List FifoEvent)
  | [], s => some (s, [])
  | a :: as, s => do
    let (s₁, es₁) ← fifoStep fifoDepth s a
    let (s₂, es₂) ← fifoRun as s₁
    some (s₂, es₁ ++ es₂)

end

/-- The queue of a new terminal, cleared by `kmalloc`. -/
def fifoInit (c : BitVec 8) : FifoSys where
  fifo := { data := fun _ => 0, ptRead := 0, ptWrite := 0 }
  c := c
  pc := none

/-- The characters that `fifo_push` has accepted. -/
def FifoEvent.acceptedOnes : List FifoEvent → List (BitVec 8) :=
  List.filterMap fun | .accepted c => some c | _ => none

/-- The characters that `fifo_pull` has delivered. -/
def FifoEvent.deliveredOnes : List FifoEvent → List (BitVec 8) :=
  List.filterMap fun | .delivered c => some c | _ => none

/-- The content of the queue. -/
def Fifo.contents (fifoDepth : BitVec 32) (fifo : Fifo) : List (BitVec 8) :=
  circContents fifo.data fifoDepth.toNat fifo.ptRead.toNat fifo.ptWrite.toNat

/-! ## The invariant -/

/-- The indices are indices of the array. -/
structure Fifo.InArray (fifoDepth : BitVec 32) (fifo : Fifo) : Prop where
  ptRead : fifo.ptRead.toNat < fifoDepth.toNat
  ptWrite : fifo.ptWrite.toNat < fifoDepth.toNat

/-- What a `fifo_pull` knows of the queue before its next step. -/
def PullPc.Knows (fifo : Fifo) (c : BitVec 8) : PullPc → Prop
  | .testRead => True
  | .testWrite ptRead => ptRead = fifo.ptRead
  | .dataIndex => fifo.ptRead ≠ fifo.ptWrite
  | .data ptRead => fifo.ptRead ≠ fifo.ptWrite ∧ ptRead = fifo.ptRead
  | .store c' => fifo.ptRead ≠ fifo.ptWrite ∧ c' = fifo.data fifo.ptRead.toNat
  | .nextIndex => fifo.ptRead ≠ fifo.ptWrite ∧ c = fifo.data fifo.ptRead.toNat
  | .next ptRead =>
    fifo.ptRead ≠ fifo.ptWrite ∧ c = fifo.data fifo.ptRead.toNat ∧ ptRead = fifo.ptRead

/-- Between two steps.  What has been accepted is what has been delivered and then what
is in the queue. -/
structure FifoInv (fifoDepth : BitVec 32) (s : FifoSys) (es : List FifoEvent) : Prop where
  inArray : s.fifo.InArray fifoDepth
  knows : ∀ pc, s.pc = some pc → pc.Knows s.fifo s.c
  order : FifoEvent.acceptedOnes es = FifoEvent.deliveredOnes es ++ s.fifo.contents fifoDepth

section
variable {fifoDepth : BitVec 32} {fifo : Fifo} {s s' : FifoSys} {es es' : List FifoEvent}
  {a : FifoAct} {c : BitVec 8} {pc : PullPc}

theorem fifoInv_init (hdepth : 2 ≤ fifoDepth) : FifoInv fifoDepth (fifoInit c) [] where
  inArray := by
    have hpos : 0 < fifoDepth.toNat := by
      rw [BitVec.le_def] at hdepth
      exact Nat.lt_of_lt_of_le (by decide) hdepth
    exact ⟨hpos, hpos⟩
  knows := fun _ h => nomatch h
  order := by
    have hpos : 0 < fifoDepth.toNat := by
      rw [BitVec.le_def] at hdepth
      exact Nat.lt_of_lt_of_le (by decide) hdepth
    exact (circContents_self hpos).symm

/-- The indices of the code are those of the circular array. -/
theorem toNat_next {pt : BitVec 32} (h : pt.toNat < fifoDepth.toNat) :
    ((pt + 1) % fifoDepth).toNat = circNext fifoDepth.toNat pt.toNat := by
  have hlt := fifoDepth.isLt
  rw [BitVec.toNat_umod, BitVec.toNat_add, circNext]
  congr 1
  exact Nat.mod_eq_of_lt (by simp only [BitVec.ofNat_eq_ofNat, BitVec.toNat_ofNat]; omega)

theorem Fifo.InArray.contents_eq_nil_iff (h : fifo.InArray fifoDepth) :
    fifo.contents fifoDepth = [] ↔ fifo.ptRead = fifo.ptWrite := by
  rw [Fifo.contents, circContents_eq_nil_iff h.ptRead h.ptWrite, BitVec.toNat_inj]

/-! ## One step -/

/-- `fifo_push` refuses a character exactly when all cells but one are in use. -/
theorem Fifo.InArray.push_failure_iff (h : fifo.InArray fifoDepth) :
    (fifoPush fifoDepth fifo c).1 = .failure ↔
      (fifo.contents fifoDepth).length = fifoDepth.toNat - 1 := by
  rw [Fifo.contents, length_circContents, circUsed_eq_pred_iff h.ptRead h.ptWrite,
    ← toNat_next h.ptWrite, BitVec.toNat_inj, fifoPush]
  by_cases hfull : (fifo.ptWrite + 1) % fifoDepth = fifo.ptRead
  · rw [if_neg (not_not.mpr hfull)]
    exact iff_of_true rfl hfull
  · rw [if_pos hfull]
    exact iff_of_false (fun h => nomatch h) hfull

/-- A `fifo_push` that accepts the character puts it at the end. -/
theorem Fifo.InArray.push_success (h : fifo.InArray fifoDepth)
    (hroom : (fifo.ptWrite + 1) % fifoDepth ≠ fifo.ptRead) :
    ∃ fifo', fifoPush fifoDepth fifo c = (.success, fifo') ∧ fifo'.InArray fifoDepth ∧
      fifo'.contents fifoDepth = fifo.contents fifoDepth ++ [c] ∧ fifo'.ptRead = fifo.ptRead ∧
      (fifo.ptRead ≠ fifo.ptWrite → fifo'.ptRead ≠ fifo'.ptWrite ∧
        fifo'.data fifo.ptRead.toNat = fifo.data fifo.ptRead.toNat) := by
  have hnext := toNat_next h.ptWrite
  have hroom' : circNext fifoDepth.toNat fifo.ptWrite.toNat ≠ fifo.ptRead.toNat := by
    rwa [← hnext, Ne, BitVec.toNat_inj]
  refine ⟨⟨Function.update fifo.data fifo.ptWrite.toNat c, fifo.ptRead,
    (fifo.ptWrite + 1) % fifoDepth⟩, if_pos hroom, ⟨h.ptRead, ?_⟩, ?_, rfl, fun hne => ⟨?_, ?_⟩⟩
  · rw [hnext]
    exact circNext_lt h.ptWrite
  · rw [Fifo.contents, hnext]
    exact circContents_push h.ptRead h.ptWrite hroom'
  · exact fun heq => hroom heq.symm
  · exact Function.update_of_ne (fun heq => hne (BitVec.toNat_inj.mp heq)) c fifo.data

theorem acceptedOnes_append (es es' : List FifoEvent) : FifoEvent.acceptedOnes (es ++ es') =
    FifoEvent.acceptedOnes es ++ FifoEvent.acceptedOnes es' := List.filterMap_append ..

theorem deliveredOnes_append (es es' : List FifoEvent) : FifoEvent.deliveredOnes (es ++ es') =
    FifoEvent.deliveredOnes es ++ FifoEvent.deliveredOnes es' := List.filterMap_append ..

/-- A `fifo_push` between two steps of `fifo_pull` changes nothing that `fifo_pull` knows. -/
theorem FifoInv.push (h : FifoInv fifoDepth s es)
    (hstep : fifoStep fifoDepth s (.push c) = some (s', es')) :
    FifoInv fifoDepth s' (es ++ es') := by
  by_cases hroom : (s.fifo.ptWrite + 1) % fifoDepth = s.fifo.ptRead
  · rw [fifoStep, fifoPush, if_neg (not_not.mpr hroom), Option.some.injEq, Prod.mk.injEq] at hstep
    obtain ⟨rfl, rfl⟩ := hstep
    refine ⟨h.inArray, h.knows, ?_⟩
    rw [acceptedOnes_append, deliveredOnes_append, h.order]
    simp [FifoEvent.acceptedOnes, FifoEvent.deliveredOnes]
  · obtain ⟨fifo', hpush, hin, hcontents, hread, hkept⟩ := h.inArray.push_success (c := c) hroom
    rw [fifoStep, hpush, Option.some.injEq, Prod.mk.injEq] at hstep
    obtain ⟨rfl, rfl⟩ := hstep
    refine ⟨hin, fun pc hpc => ?_, ?_⟩
    · have hknows := h.knows pc hpc
      cases pc with
      | testRead => trivial
      | testWrite ptRead => exact hknows.trans hread.symm
      | dataIndex => exact (hkept hknows).1
      | data ptRead => exact ⟨(hkept hknows.1).1, hknows.2.trans hread.symm⟩
      | store c' =>
        refine ⟨(hkept hknows.1).1, hknows.2.trans ?_⟩
        rw [hread]
        exact (hkept hknows.1).2.symm
      | nextIndex =>
        refine ⟨(hkept hknows.1).1, hknows.2.trans ?_⟩
        rw [hread]
        exact (hkept hknows.1).2.symm
      | next ptRead =>
        refine ⟨(hkept hknows.1).1, hknows.2.1.trans ?_, hknows.2.2.trans hread.symm⟩
        rw [hread]
        exact (hkept hknows.1).2.symm
    · rw [acceptedOnes_append, deliveredOnes_append, h.order, hcontents]
      simp [FifoEvent.acceptedOnes, FifoEvent.deliveredOnes]

/-- A step of `fifo_pull` that does not end it leaves the queue alone. -/
theorem FifoInv.goto (h : FifoInv fifoDepth s es) (hfifo : s'.fifo = s.fifo)
    (hknows : ∀ pc, s'.pc = some pc → pc.Knows s.fifo s'.c) : FifoInv fifoDepth s' (es ++ []) where
  inArray := hfifo ▸ h.inArray
  knows := by
    rw [hfifo]
    exact hknows
  order := by
    rw [List.append_nil, hfifo]
    exact h.order

/-- The last step of `fifo_pull` gives the cell of the oldest character back. -/
theorem FifoInv.release (h : FifoInv fifoDepth s es) (hne : s.fifo.ptRead ≠ s.fifo.ptWrite)
    (hc : s.c = s.fifo.data s.fifo.ptRead.toNat) : FifoInv fifoDepth
      { s with fifo := { s.fifo with ptRead := (s.fifo.ptRead + 1) % fifoDepth }, pc := none }
      (es ++ [.delivered s.c]) where
  inArray := by
    refine ⟨?_, h.inArray.ptWrite⟩
    rw [toNat_next h.inArray.ptRead]
    exact circNext_lt h.inArray.ptRead
  knows := fun _ h => nomatch h
  order := by
    have hne' : s.fifo.ptRead.toNat ≠ s.fifo.ptWrite.toNat := fun heq =>
      hne (BitVec.toNat_inj.mp heq)
    rw [acceptedOnes_append, deliveredOnes_append, h.order, Fifo.contents,
      circContents_pull h.inArray.ptRead h.inArray.ptWrite hne', ← hc,
      ← toNat_next h.inArray.ptRead]
    simp [FifoEvent.acceptedOnes, FifoEvent.deliveredOnes, Fifo.contents]

/-- A read or write of `fifo_pull`. -/
theorem FifoInv.access (h : FifoInv fifoDepth s es) (hpc : s.pc = some pc) :
    FifoInv fifoDepth (pullStep fifoDepth s pc).1 (es ++ (pullStep fifoDepth s pc).2) := by
  have hknows := h.knows pc hpc
  cases pc with
  | testRead =>
    refine h.goto rfl fun pc hpc => ?_
    obtain rfl := Option.some.inj hpc
    rfl
  | testWrite ptRead =>
    obtain rfl : ptRead = s.fifo.ptRead := hknows
    rw [pullStep]
    by_cases htest : s.fifo.ptRead = s.fifo.ptWrite
    · rw [if_neg (not_not.mpr htest)]
      refine ⟨h.inArray, (fun _ h => nomatch h), ?_⟩
      rw [acceptedOnes_append, deliveredOnes_append, h.order]
      simp [FifoEvent.acceptedOnes, FifoEvent.deliveredOnes]
    · rw [if_pos htest]
      refine h.goto rfl fun pc hpc => ?_
      obtain rfl := Option.some.inj hpc
      exact htest
  | dataIndex =>
    refine h.goto rfl fun pc hpc => ?_
    obtain rfl := Option.some.inj hpc
    exact ⟨hknows, rfl⟩
  | data ptRead =>
    refine h.goto rfl fun pc hpc => ?_
    obtain rfl := Option.some.inj hpc
    exact ⟨hknows.1, by rw [hknows.2]⟩
  | store c =>
    refine h.goto rfl fun pc hpc => ?_
    obtain rfl := Option.some.inj hpc
    exact hknows
  | nextIndex =>
    refine h.goto rfl fun pc hpc => ?_
    obtain rfl := Option.some.inj hpc
    exact ⟨hknows.1, hknows.2, rfl⟩
  | next ptRead =>
    obtain ⟨hne, hc, rfl⟩ := hknows
    exact h.release hne hc

theorem FifoInv.step (h : FifoInv fifoDepth s es)
    (hstep : fifoStep fifoDepth s a = some (s', es')) : FifoInv fifoDepth s' (es ++ es') := by
  cases a with
  | push c => exact h.push hstep
  | pull =>
    rw [fifoStep] at hstep
    split at hstep
    · obtain ⟨rfl, rfl⟩ := Prod.mk.inj (Option.some.inj hstep)
      refine h.goto rfl fun pc hpc => ?_
      obtain rfl := Option.some.inj hpc
      trivial
    · exact nomatch hstep
  | access =>
    obtain ⟨pc, hpc, heq⟩ := Option.map_eq_some_iff.mp hstep
    have hnext := h.access hpc
    rwa [heq] at hnext

/-! ## Runs -/

theorem FifoInv.run {as : List FifoAct} (h : FifoInv fifoDepth s es)
    (hrun : fifoRun fifoDepth as s = some (s', es')) : FifoInv fifoDepth s' (es ++ es') := by
  induction as generalizing s es es' with
  | nil =>
    obtain ⟨rfl, rfl⟩ := Prod.mk.inj (Option.some.inj hrun)
    rwa [List.append_nil]
  | cons a as ih =>
    obtain ⟨⟨s₁, es₁⟩, hstep, hrest⟩ := Option.bind_eq_some_iff.mp hrun
    obtain ⟨⟨s₂, es₂⟩, hrun', heq⟩ := Option.bind_eq_some_iff.mp hrest
    obtain ⟨rfl, rfl⟩ := Prod.mk.inj (Option.some.inj heq)
    rw [← List.append_assoc]
    exact ih (h.step hstep) hrun'

end

/-- In every run, with interrupts between any two reads and writes of the reader, the
characters that are accepted are delivered in order, and those not yet delivered are the
content of the queue.  A character is refused exactly when `FIFO_DEPTH - 1` are not yet
released, and `fifo_pull` fails only when the queue is empty at its test. -/
theorem fifo_in_order {fifoDepth : BitVec 32} (hdepth : 2 ≤ fifoDepth) {c : BitVec 8}
    {as : List FifoAct} {s : FifoSys} {es : List FifoEvent}
    (hrun : fifoRun fifoDepth as (fifoInit c) = some (s, es)) :
    FifoEvent.acceptedOnes es = FifoEvent.deliveredOnes es ++ s.fifo.contents fifoDepth ∧
    (∀ c', (fifoPush fifoDepth s.fifo c').1 = .failure ↔
      (FifoEvent.acceptedOnes es).length - (FifoEvent.deliveredOnes es).length =
        fifoDepth.toNat - 1) ∧
    ∀ s', fifoStep fifoDepth s .access = some (s', [.empty]) → s.fifo.contents fifoDepth = [] := by
  have h := (fifoInv_init hdepth).run hrun
  rw [List.nil_append] at h
  refine ⟨h.order, fun c' => ?_, fun s' hstep => ?_⟩
  · rw [h.inArray.push_failure_iff, h.order, List.length_append, Nat.add_sub_cancel_left]
  · obtain ⟨pc, hpc, heq⟩ := Option.map_eq_some_iff.mp hstep
    have hknows := h.knows pc hpc
    rw [h.inArray.contents_eq_nil_iff]
    cases pc with
    | testWrite ptRead =>
      rw [pullStep] at heq
      split at heq
      · exact absurd (Prod.mk.inj heq).2 (by simp)
      · rename_i htest
        exact hknows.symm.trans (not_not.mp htest)
    | _ => exact absurd (Prod.mk.inj heq).2 (by simp)

/-- A key, a call of `fifo_pull` up to its fourth access with the second key in between,
its end, and the third key. -/
def threeKeys : List FifoAct :=
  [.push 97, .pull, .access, .access, .access, .push 98, .access, .access, .access, .access,
    .push 99]

/-- With two cells, the second key is refused while the first one is being read. -/
theorem fifo_in_order_two :
    ∃ s es, fifoRun 2 threeKeys (fifoInit 0) = some (s, es) ∧
      FifoEvent.acceptedOnes es = [97, 99] ∧ FifoEvent.deliveredOnes es = [97] ∧
      FifoEvent.acceptedOnes es = FifoEvent.deliveredOnes es ++ s.fifo.contents 2 := by
  have hevents : (fifoRun 2 threeKeys (fifoInit 0)).map (fun r =>
      (FifoEvent.acceptedOnes r.2, FifoEvent.deliveredOnes r.2)) = some ([97, 99], [97]) := by
    decide
  obtain ⟨⟨s, es⟩, hrun, heq⟩ := Option.map_eq_some_iff.mp hevents
  obtain ⟨haccepted, hdelivered⟩ := Prod.mk.inj heq
  exact ⟨s, es, hrun, haccepted, hdelivered, (fifo_in_order (by decide) hrun).1⟩

end Ko6.Kernel
