import Ko6.Hal.ContextMips
import Ko6.Hal.ContextRiscv

set_option autoImplicit false

/-!
# Hal: switches between threads

`sched_switch` saves the current thread in its table and loads another one.  What a thread has
in the processor when it is saved is what it has when it is loaded again, after any number of
switches between the others, whatever the threads do that leaves the tables alone.
-/

namespace Ko6.Hal.Context

open Lib

/-- The context functions of a kind of processors.  `saves` and `loads` tell where and how the
functions return, `context` and `result` are the registers of their argument and result. -/
structure Switcher (C : Type) where
  Cpu : Type
  saves : Cpu × Mem C → Word → Cpu × Mem C → Prop
  loads : Cpu × Mem C → Word → Cpu × Mem C → Prop
  init : (Word → Word) → Word → Word → Word → Word → Word
  context : Cpu → Word
  result : Cpu → Word
  returnAddr : Cpu → Word
  stackPointer : Cpu → Word
  status : Cpu → Word
  initStatus : Word
  Same : Cpu → Cpu → Prop
  Area : Word → Word → Prop
  ofContext : (Word → Word) → Word → Cpu
  InContext : (Word → Word) → Word → Cpu → Prop

/-- What the functions have to do. -/
structure Switcher.Lawful {C : Type} (W : Switcher C) : Prop where
  saves : ∀ {p addr p'}, W.saves p addr p' →
    addr = W.returnAddr p.1 ∧ W.result p'.1 = 1 ∧ W.Same p.1 p'.1 ∧
      W.InContext p'.2.mem (W.context p.1) p.1 ∧
      ∀ a, ¬ W.Area (W.context p.1) a → p'.2.mem a = p.2.mem a
  exists_saves : ∀ p, ∃ addr p', W.saves p addr p'
  loads : ∀ {p addr p' s}, W.InContext p.2.mem (W.context p.1) s → W.loads p addr p' →
    addr = W.returnAddr s ∧ W.result p'.1 = 0 ∧ W.Same s p'.1 ∧ p'.2.mem = p.2.mem
  exists_loads : ∀ {p s}, W.InContext p.2.mem (W.context p.1) s → ∃ addr p', W.loads p addr p'
  congr : ∀ {m m' context s}, W.InContext m context s → (∀ a, W.Area context a → m' a = m a) →
    W.InContext m' context s
  ofContext : ∀ m context, W.InContext m context (W.ofContext m context)
  init : ∀ m context bootstrap sp,
    let s := W.ofContext (W.init m context bootstrap sp) context
    W.returnAddr s = bootstrap ∧ W.stackPointer s = sp ∧ W.status s = W.initStatus
  same : ∀ {s s'}, W.Same s s' → W.stackPointer s' = W.stackPointer s ∧ W.status s' = W.status s
  init_frame : ∀ {m context bootstrap sp a}, ¬ W.Area context a →
    W.init m context bootstrap sp a = m a

/-- No function is called by the texts. -/
def noCallee {σ : Type} (_ : Word) (_ _ : σ) : Prop := False

def mips (C : Type) [DecidableEq C] (c : C) : Switcher C where
  Cpu := Mips.Cpu
  saves := Asm.Exits (Mips.step c) noCallee Mips.thread_context_save 0
  loads := Asm.Exits (Mips.step c) noCallee Mips.thread_context_load 0
  init := Mips.thread_context_init
  context s := s.reg 4
  result s := s.reg 2
  returnAddr s := s.reg 31
  stackPointer s := s.reg 29
  status s := s.cp0 12
  initStatus := 0x413
  Same := Mips.SameThread
  Area := Mips.Area
  ofContext := Mips.ofContext
  InContext := Mips.InContext

def riscv (C : Type) [DecidableEq C] (c : C) : Switcher C where
  Cpu := Riscv.Cpu
  saves := Asm.Exits (Riscv.step c) noCallee Riscv.thread_context_save 0
  loads := Asm.Exits (Riscv.step c) noCallee Riscv.thread_context_load 0
  init := Riscv.thread_context_init
  context s := s.reg Riscv.a0
  result s := s.reg Riscv.a0
  returnAddr s := s.reg Riscv.ra
  stackPointer s := s.reg Riscv.sp
  status s := s.csr .mstatus
  initStatus := 0x1808
  Same := Riscv.SameThread
  Area := Riscv.Area
  ofContext := Riscv.ofContext
  InContext := Riscv.InContext

section
variable {C : Type} [DecidableEq C] (c : C)

theorem mips_lawful : (mips C c).Lawful where
  saves h := Mips.save_leads.of_exits h
  exists_saves := Mips.exists_save_exits
  loads h he := (Mips.load_leads h).of_exits he
  exists_loads := Mips.exists_load_exits
  congr h hm := h.congr hm
  ofContext := Mips.inContext_ofContext
  init := Mips.ofContext_init
  same h := ⟨h.reg (29, Mips.TH_CONTEXT_SP * 4) (by decide), h.status⟩
  init_frame := Mips.init_frame

theorem riscv_lawful : (riscv C c).Lawful where
  saves h := Riscv.save_leads.of_exits h
  exists_saves := Riscv.exists_save_exits
  loads h he := (Riscv.load_leads h).of_exits he
  exists_loads := Riscv.exists_load_exits
  congr h hm := h.congr hm
  ofContext := Riscv.inContext_ofContext
  init := Riscv.ofContext_init
  same h := ⟨h.reg (Riscv.sp, Riscv.TH_CONTEXT_SP * 4) (by decide), h.status⟩
  init_frame := Riscv.init_frame

end

/-! ## Runs -/

/-- The processor, the memory, the current thread and the threads that exist. -/
structure Kernel {C : Type} (W : Switcher C) (T : Type) where
  cpu : W.Cpu
  bus : Mem C
  current : T
  live : T → Prop

section
variable {C T : Type} {W : Switcher C}

/-- `sched_switch` from the current thread to `t`: the current thread is saved, the kernel
goes on with what leaves the tables alone, and `t` is loaded and goes on at `addr`. -/
inductive Switch (table : T → Word) : Kernel W T → T → Word → Kernel W T → Prop where
  | intro (k : Kernel W T) (t : T) {a addr : Word} {p p' p'' : W.Cpu × Mem C}
      (hlive : k.live t) (hne : t ≠ k.current) (harg : W.context k.cpu = table k.current)
      (hsaves : W.saves (k.cpu, k.bus) a p)
      (hkeep : ∀ u, k.live u → ∀ a, W.Area (table u) a → p'.2.mem a = p.2.mem a)
      (hcurrent : ∀ a, W.Area (table k.current) a → p'.2.mem a = p.2.mem a)
      (harg' : W.context p'.1 = table t) (hloads : W.loads p' addr p'') :
      Switch table k t addr { k with cpu := p''.1, bus := p''.2, current := t }

/-- `thread_create` of `t`, up to what it writes to the table. -/
inductive Create (table : T → Word) : Kernel W T → T → Word → Word → Kernel W T → Prop where
  | intro (k : Kernel W T) (t : T) (bootstrap sp : Word) (cpu : W.Cpu) (bus : Mem C)
      (hnew : ¬ k.live t)
      (hmem : ∀ a, W.Area (table t) a → bus.mem a = W.init k.bus.mem (table t) bootstrap sp a)
      (hkeep : ∀ u, k.live u → ∀ a, W.Area (table u) a → bus.mem a = k.bus.mem a) :
      Create table k t bootstrap sp
        { k with cpu := cpu, bus := bus, live := fun u => k.live u ∨ u = t }

/-- One step: the current thread works, in its program or in the kernel, and leaves alone the
tables of the others; a thread is created or destroyed; or there is a switch. -/
inductive Step (table : T → Word) : Kernel W T → Kernel W T → Prop where
  | work (k : Kernel W T) (cpu : W.Cpu) (bus : Mem C)
      (hkeep : ∀ u, k.live u → u ≠ k.current → ∀ a, W.Area (table u) a →
        bus.mem a = k.bus.mem a) : Step table k { k with cpu := cpu, bus := bus }
  | create {k k' : Kernel W T} {t : T} {bootstrap sp : Word}
      (h : Create table k t bootstrap sp k') : Step table k k'
  | destroy (k : Kernel W T) (t : T) (hne : t ≠ k.current) :
      Step table k { k with live := fun u => k.live u ∧ u ≠ t }
  | switch {k k' : Kernel W T} {t : T} {addr : Word} (h : Switch table k t addr k') :
      Step table k k'

/-- A run in which the thread `t` exists all the time and is never the current one. -/
inductive RunWithout (table : T → Word) (t : T) : Kernel W T → Kernel W T → Prop where
  | refl {k : Kernel W T} (hlive : k.live t) (hne : k.current ≠ t) : RunWithout table t k k
  | tail {k k' k'' : Kernel W T} (h : RunWithout table t k k') (hs : Step table k' k'')
      (hlive : k''.live t) (hne : k''.current ≠ t) : RunWithout table t k k''

variable {table : T → Word} {k k' k'' : Kernel W T} {t u : T} {addr : Word} {s : W.Cpu}

theorem RunWithout.last (h : RunWithout table t k k') : k'.live t ∧ k'.current ≠ t := by
  cases h with
  | refl hlive hne | tail _ _ hlive hne => exact ⟨hlive, hne⟩

/-- No step of the others touches the table of a thread. -/
theorem Step.table_eq (hW : W.Lawful)
    (hdisj : ∀ t u, t ≠ u → ∀ a, W.Area (table t) a → ¬ W.Area (table u) a)
    (hs : Step table k k') (hlive : k.live t) (hne : k.current ≠ t) :
    ∀ a, W.Area (table t) a → k'.bus.mem a = k.bus.mem a := by
  intro a ha
  cases hs with
  | work cpu bus hkeep => exact hkeep t hlive hne.symm a ha
  | create h =>
    cases h with
    | intro cpu bus hnew hmem hkeep => exact hkeep t hlive a ha
  | destroy u hu => rfl
  | switch h =>
    cases h with
    | intro hu hne' harg hsaves hkeep hcurrent harg' hloads =>
      obtain ⟨-, -, -, -, hframe⟩ := hW.saves hsaves
      obtain ⟨-, -, -, hmem⟩ := hW.loads (hW.ofContext _ _) hloads
      have hout : ¬ W.Area (W.context k.cpu) a := by
        rw [harg]
        exact hdisj t k.current (Ne.symm hne) a ha
      exact (congrFun hmem a).trans ((hkeep t hlive a ha).trans (hframe a hout))

/-- A thread stays in its table while it is not the current one. -/
theorem RunWithout.inContext (hW : W.Lawful)
    (hdisj : ∀ t u, t ≠ u → ∀ a, W.Area (table t) a → ¬ W.Area (table u) a)
    (h : RunWithout table t k k') (hin : W.InContext k.bus.mem (table t) s) :
    W.InContext k'.bus.mem (table t) s := by
  induction h with
  | refl => exact hin
  | tail h hs _ _ ih =>
    obtain ⟨hlive, hne⟩ := h.last
    exact hW.congr ih (hs.table_eq hW hdisj hlive hne)

/-- A switch to a thread goes on with what its table holds. -/
theorem Switch.loads (hW : W.Lawful)
    (hdisj : ∀ t u, t ≠ u → ∀ a, W.Area (table t) a → ¬ W.Area (table u) a)
    (h : Switch table k t addr k') (hin : W.InContext k.bus.mem (table t) s) :
    addr = W.returnAddr s ∧ W.result k'.cpu = 0 ∧ W.Same s k'.cpu := by
  cases h with
  | intro hlive hne harg hsaves hkeep hcurrent harg' hloads =>
    obtain ⟨-, -, -, -, hframe⟩ := hW.saves hsaves
    rw [harg] at hframe
    have hin' := hW.congr hin fun x hx =>
      (hkeep t hlive x hx).trans (hframe x (hdisj t k.current hne x hx))
    rw [← harg'] at hin'
    obtain ⟨haddr, hresult, hsame, -⟩ := hW.loads hin' hloads
    exact ⟨haddr, hresult, hsame⟩

/-- A switch leaves the thread it comes from in its table. -/
theorem Switch.saves (hW : W.Lawful) (h : Switch table k t addr k') :
    W.InContext k'.bus.mem (table k.current) k.cpu := by
  cases h with
  | intro hlive hne harg hsaves hkeep hcurrent harg' hloads =>
    obtain ⟨-, -, -, hin, -⟩ := hW.saves hsaves
    obtain ⟨-, -, -, hmem⟩ := hW.loads (hW.ofContext _ _) hloads
    rw [harg] at hin
    exact hW.congr hin fun x hx => (congrFun hmem x).trans (hcurrent x hx)

theorem Create.inContext (hW : W.Lawful) {bootstrap sp : Word}
    (h : Create table k t bootstrap sp k') :
    W.InContext k'.bus.mem (table t)
      (W.ofContext (W.init k.bus.mem (table t) bootstrap sp) (table t)) := by
  cases h with
  | intro cpu bus hnew hmem hkeep => exact hW.congr (hW.ofContext _ _) hmem

theorem Switch.current_eq (h : Switch table k t addr k') : k'.current = t ∧ k'.live = k.live := by
  cases h with
  | intro => exact ⟨rfl, rfl⟩

/-- A switch from the current thread to any other one can be made. -/
theorem exists_switch (table : T → Word) (k : Kernel W T) (t : T) (hW : W.Lawful) (hlive : k.live t) (hne : t ≠ k.current)
    (harg : W.context k.cpu = table k.current) (hcpu : ∃ cpu, W.context cpu = table t) :
    ∃ addr k', Switch table k t addr k' := by
  obtain ⟨a, p, hsaves⟩ := hW.exists_saves (k.cpu, k.bus)
  obtain ⟨cpu, hcpu⟩ := hcpu
  obtain ⟨addr, p', hloads⟩ := hW.exists_loads (p := (cpu, p.2)) (hW.ofContext _ _)
  refine ⟨addr, _, .intro k t hlive hne harg hsaves ?_ ?_ hcpu hloads⟩
  · exact fun _ _ _ _ => rfl
  · exact fun _ _ => rfl

end

/-! ## Both kinds of processors -/

section
variable {C T : Type} [DecidableEq C] (kind : Kind) (c : C)

/-- The context functions of the kind. -/
def switcher : Kind → Switcher C
  | .mips => mips C c
  | .riscv => riscv C c

theorem switcher_lawful : (switcher c kind).Lawful := by
  cases kind with
  | mips => exact mips_lawful c
  | riscv => exact riscv_lawful c

variable {table : T → Word} {k k1 k2 k3 : Kernel (switcher c kind) T} {t u : T} {a addr : Word}

/-- A thread that `sched_switch` has left comes back where `thread_context_save` was called,
with 0 and with the registers it had. -/
theorem sched_switch_resumes
    (hdisj : ∀ t u, t ≠ u → ∀ a, (switcher c kind).Area (table t) a →
      ¬ (switcher c kind).Area (table u) a)
    (haway : Switch table k u a k1) (hrun : RunWithout table k.current k1 k2)
    (hback : Switch table k2 k.current addr k3) :
    addr = (switcher c kind).returnAddr k.cpu ∧ (switcher c kind).result k3.cpu = 0 ∧
      (switcher c kind).Same k.cpu k3.cpu :=
  have hW := switcher_lawful kind c
  hback.loads hW hdisj (hrun.inContext hW hdisj (haway.saves hW))

end

/-- Two threads, with their tables at `0x1000` and `0x2000`. -/
def twoTables : Bool → Word
  | false => 0x1000
  | true => 0x2000

theorem twoTables_disjoint (t u : Bool) (htu : t ≠ u) (a : Word)
    (ht : Mips.Area (twoTables t) a) : ¬ Mips.Area (twoTables u) a := by
  obtain ⟨p, hp, rfl⟩ := ht
  rintro ⟨q, hq, heq⟩
  have hne : ∀ p ∈ Mips.entries, ∀ q ∈ Mips.entries,
      (0x1000 : Word) + p.2 ≠ 0x2000 + q.2 := Asm.forall_mem₂_of_all (by decide)
  cases t <;> cases u
  · exact htu rfl
  · exact hne p hp q hq heq
  · exact hne q hq p hp heq.symm
  · exact htu rfl

/-- The current thread is the one at `0x1000`, about to call `thread_context_save`. -/
def twoThreads : Kernel (switcher () .mips) Bool where
  cpu := (⟨fun r => if r = 4 then 0x1000 else 0, 0, 0, fun _ => 0⟩ : Mips.Cpu)
  bus := ⟨fun _ => 0, fun _ => none⟩
  current := false
  live _ := True

/-- The processor when the current thread calls for the table at `a`. -/
def calling (a : Word) : Mips.Cpu := ⟨fun r => if r = 4 then a else 0, 0, 0, fun _ => 0⟩

theorem sched_switch_resumes_twoThreads :
    ∃ (k1 k2 k3 : Kernel (switcher () .mips) Bool) (a addr : Word),
      Switch twoTables twoThreads true a k1 ∧ RunWithout twoTables false k1 k2 ∧
        Switch twoTables k2 false addr k3 ∧ addr = 0 ∧
        (switcher () .mips).result k3.cpu = 0 ∧
        (switcher () .mips).Same twoThreads.cpu k3.cpu := by
  have hW := switcher_lawful .mips ()
  obtain ⟨a, k1, haway⟩ := exists_switch twoTables twoThreads true hW trivial (by decide) rfl
    ⟨calling 0x2000, rfl⟩
  obtain ⟨hcurrent, hlive⟩ := haway.current_eq
  have hne : k1.current ≠ false := by rw [hcurrent]; decide
  have hall : k1.live false := by rw [hlive]; trivial
  -- the other thread runs until it is about to switch in its turn
  have hrun : RunWithout twoTables false k1 { k1 with cpu := calling 0x2000, bus := k1.bus } :=
    .tail (.refl hall hne) (.work k1 _ _ fun _ _ _ _ _ => rfl) hall hne
  have harg : (switcher () .mips).context (calling 0x2000) = twoTables k1.current := by
    rw [hcurrent]
    rfl
  obtain ⟨addr, k3, hback⟩ := exists_switch twoTables
    { k1 with cpu := calling 0x2000, bus := k1.bus } false hW hall hne.symm harg
    ⟨calling 0x1000, rfl⟩
  exact ⟨k1, _, k3, a, addr, haway, hrun, hback,
    sched_switch_resumes .mips () twoTables_disjoint haway hrun hback⟩

section
variable {C T : Type} [DecidableEq C] (kind : Kind) (c : C)
variable {table : T → Word} {k k1 k2 k3 : Kernel (switcher c kind) T} {t u : T} {a addr : Word}

/-- A thread that has been created begins in its bootstrap function, on its stack. -/
theorem sched_switch_starts
    (hdisj : ∀ t u, t ≠ u → ∀ a, (switcher c kind).Area (table t) a →
      ¬ (switcher c kind).Area (table u) a) {bootstrap sp : Word}
    (hcreate : Create table k t bootstrap sp k1) (hrun : RunWithout table t k1 k2)
    (hfirst : Switch table k2 t addr k3) :
    addr = bootstrap ∧ (switcher c kind).stackPointer k3.cpu = sp ∧
      (switcher c kind).status k3.cpu = (switcher c kind).initStatus := by
  have hW := switcher_lawful kind c
  obtain ⟨haddr, -, hsame⟩ :=
    hfirst.loads hW hdisj (hrun.inContext hW hdisj (hcreate.inContext hW))
  obtain ⟨hra, hsp, hstatus⟩ := hW.init k.bus.mem (table t) bootstrap sp
  obtain ⟨hsp', hstatus'⟩ := hW.same hsame
  exact ⟨haddr.trans hra, hsp'.trans hsp, hstatus'.trans hstatus⟩


end

/-- The thread at `0x1000` has created the one at `0x2000`, and is about to switch. -/
def created : Kernel (switcher () .mips) Bool where
  cpu := calling 0x1000
  bus := ⟨Mips.thread_context_init (fun _ => 0) 0x2000 0x80001000 0x7ffff0, fun _ => none⟩
  current := false
  live u := u = false ∨ u = true

theorem created_create : Create twoTables { twoThreads with live := fun u => u = false } true
    0x80001000 0x7ffff0 created := by
  refine .intro _ _ _ _ _ _ (by decide) (fun _ _ => rfl) ?_
  rintro u rfl a ha
  exact Mips.init_frame (twoTables_disjoint false true (by decide) a ha)

theorem sched_switch_starts_created :
    ∃ (k3 : Kernel (switcher () .mips) Bool) (addr : Word),
      Switch twoTables created true addr k3 ∧ addr = 0x80001000 ∧
        (switcher () .mips).stackPointer k3.cpu = 0x7ffff0 ∧
        (switcher () .mips).status k3.cpu = 0x413 := by
  have hW := switcher_lawful .mips ()
  obtain ⟨addr, k3, hfirst⟩ := exists_switch twoTables created true hW (.inr rfl) (by decide) rfl
    ⟨calling 0x2000, rfl⟩
  exact ⟨k3, addr, hfirst, sched_switch_starts .mips () twoTables_disjoint created_create
    (.refl (.inr rfl) (by decide)) hfirst⟩

end Ko6.Hal.Context
