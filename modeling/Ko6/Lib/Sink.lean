import Ko6.Lib.Mem

set_option autoImplicit false

/-!
# Lib: output into a buffer of bounded size

Bytes are put one behind the other into a memory, and a counter that goes down with
each of them stops the output where it becomes zero.  A program that does so in many
places has put a prefix of one text in the end: `emit` puts a text, the text of two
parts is put part by part, and `emit_room` says what is in the memory then.  A
counter that is zero at the beginning stops the output a whole turn later.
-/

namespace Ko6.Lib

/-- How a piece of code ends: it goes on, or the output is full, or it does what it must
not. -/
inductive Flow (ω α : Type) where
  | next (a : α)
  | abort (o : ω)
  | fault

namespace Flow

variable {ω α β γ : Type}

/-- One piece of code after another. -/
def bind (x : Flow ω α) (f : α → Flow ω β) : Flow ω β :=
  match x with
  | .next a => f a
  | .abort o => .abort o
  | .fault => .fault

def map (f : α → β) (x : Flow ω α) : Flow ω β := x.bind fun a => .next (f a)

/-- What may fault and cannot fill the output. -/
def ofOption : Option α → Flow ω α
  | none => .fault
  | some a => .next a

@[simp] theorem next_bind (a : α) (f : α → Flow ω β) : (Flow.next a).bind f = f a := rfl

theorem bind_assoc (x : Flow ω α) (f : α → Flow ω β) (g : β → Flow ω γ) :
    (x.bind f).bind g = x.bind fun a => (f a).bind g := by
  cases x with
  | next a => rfl
  | abort o => rfl
  | fault => rfl

theorem map_bind (x : Flow ω α) (f : α → β) (g : β → Flow ω γ) :
    (x.map f).bind g = x.bind fun a => g (f a) := by
  cases x with
  | next a => rfl
  | abort o => rfl
  | fault => rfl

end Flow

/-- The memory with the bytes of `l` from `a` on. -/
def writeBytes (m : Mem) : Nat → List (BitVec 8) → Mem
  | _, [] => m
  | a, c :: l => writeBytes (Function.update m a c) (a + 1) l

/-- The output: the memory, the place of the next byte, and the counter. -/
structure Sink where
  mem : Mem
  pos : Nat
  count : BitVec 32

namespace Sink

/-- The output with one more byte. -/
def push (o : Sink) (c : BitVec 8) : Sink :=
  { mem := Function.update o.mem o.pos c, pos := o.pos + 1, count := o.count - 1 }

/-- One more byte, and the test of the counter. -/
def put (o : Sink) (c : BitVec 8) : Flow Sink Sink :=
  if (o.push c).count = 0 then .abort (o.push c) else .next (o.push c)

/-- The bytes of a text. -/
def emit : List (BitVec 8) → Sink → Flow Sink Sink
  | [], o => .next o
  | c :: l, o => (o.put c).bind (emit l)

/-- The number of bytes until the counter is zero. -/
def room (o : Sink) : Nat := if o.count = 0 then 2 ^ 32 else o.count.toNat

end Sink

/-! ## Writing a text -/

section
variable {m : Mem} {a b : Nat} {l l' : List (BitVec 8)}

theorem writeBytes_append : writeBytes m a (l ++ l')
    = writeBytes (writeBytes m a l) (a + l.length) l' := by
  induction l generalizing m a with
  | nil => rfl
  | cons c l ih =>
    rw [List.cons_append, writeBytes, writeBytes, ih, List.length_cons, Nat.add_assoc,
      Nat.add_comm 1]

theorem writeBytes_of_outside (h : b < a ∨ a + l.length ≤ b) : writeBytes m a l b = m b := by
  induction l generalizing m a with
  | nil => rfl
  | cons c l ih =>
    rw [List.length_cons] at h
    rw [writeBytes, ih (by omega), Function.update_of_ne (by omega)]

theorem writeBytes_of_inside (i : Nat) (h : i < l.length) : writeBytes m a l (a + i) = l[i] := by
  induction l generalizing m a i with
  | nil => exact absurd h (Nat.not_lt_zero i)
  | cons c l ih =>
    rw [writeBytes]
    cases i with
    | zero =>
      change writeBytes _ (a + 1) l a = c
      rw [writeBytes_of_outside (.inl (Nat.lt_succ_self a)), Function.update_self]
    | succ i =>
      rw [List.length_cons] at h
      have haddr : a + (i + 1) = a + 1 + i := by omega
      rw [haddr, ih i (by omega)]
      rfl

end

/-! ## Putting a text -/

namespace Sink

variable {o : Sink} {l l' : List (BitVec 8)} {c : BitVec 8}

theorem emit_append : emit (l ++ l') o = (emit l o).bind (emit l') := by
  induction l generalizing o with
  | nil => rfl
  | cons c l ih =>
    rw [List.cons_append, emit, emit, Flow.bind_assoc]
    congr 1
    funext o
    exact ih

theorem emit_singleton : emit [c] o = o.put c := by
  rw [emit]
  cases o.put c with
  | next o => rfl
  | abort o => rfl
  | fault => rfl

theorem room_pos : 0 < o.room := by
  unfold room
  split
  · decide
  · rename_i h
    exact Nat.pos_of_ne_zero fun hz => h (BitVec.eq_of_toNat_eq hz)

/-- After one byte the counter is zero exactly when there was room for one. -/
theorem push_count : ((o.push c).count = 0 ↔ o.room = 1) ∧
    (o.room ≠ 1 → (o.push c).room = o.room - 1) := by
  have hlt := o.count.isLt
  have hcount : (o.push c).count.toNat = (o.count.toNat + (2 ^ 32 - 1)) % 2 ^ 32 := by
    change (o.count - 1).toNat = _
    rw [BitVec.toNat_sub, Nat.add_comm]
    rfl
  have hzero : ∀ x : BitVec 32, x = 0 ↔ x.toNat = 0 := fun x =>
    ⟨fun h => congrArg BitVec.toNat h, fun h => BitVec.eq_of_toNat_eq h⟩
  have hroom : o.room = if o.count.toNat = 0 then 2 ^ 32 else o.count.toNat := by
    simp only [room, hzero]
  have hroom' : (o.push c).room = if (o.push c).count.toNat = 0 then 2 ^ 32
      else (o.push c).count.toNat := by
    simp only [room, hzero]
  rw [hzero, hroom', hroom, hcount]
  constructor
  · split <;> omega
  · intro hne
    split at hne <;> split <;> omega

/-- A text that leaves room is put as a whole, and of another one as much as there is
room for. -/
theorem emit_room : emit l o =
    if l.length < o.room then
      .next { mem := writeBytes o.mem o.pos l, pos := o.pos + l.length,
              count := o.count - BitVec.ofNat 32 l.length }
    else
      .abort { mem := writeBytes o.mem o.pos (l.take o.room), pos := o.pos + o.room, count := 0 } := by
  induction l generalizing o with
  | nil =>
    rw [if_pos (show ([] : List (BitVec 8)).length < o.room from room_pos)]
    change Flow.next o = _
    simp [writeBytes]
  | cons c l ih =>
    obtain ⟨hstop, hnext⟩ := push_count (o := o) (c := c)
    rw [emit, put, List.length_cons]
    by_cases hone : o.room = 1
    · rw [if_pos (hstop.mpr hone), if_neg (by omega), hone, List.take_succ_cons, List.take_zero]
      have hcount := hstop.mpr hone
      change Flow.abort (o.push c) = _
      rw [← hcount]
      rfl
    · have hpos := room_pos (o := o)
      rw [if_neg (mt hstop.mp hone), Flow.next_bind, ih, hnext hone]
      obtain ⟨k, hk⟩ : ∃ k, o.room = k + 1 := ⟨o.room - 1, by omega⟩
      rw [hk, Nat.add_sub_cancel]
      by_cases hlt : l.length < k
      · rw [if_pos hlt, if_pos (Nat.succ_lt_succ hlt)]
        congr 2
        · change o.pos + 1 + l.length = _
          omega
        · change o.count - 1 - _ = _
          rw [BitVec.ofNat_add, BitVec.sub_sub, BitVec.add_comm]
          rfl
      · rw [if_neg hlt, if_neg (mt Nat.lt_of_succ_lt_succ hlt), List.take_succ_cons]
        congr 2
        change o.pos + 1 + k = _
        omega

end Sink

end Ko6.Lib
