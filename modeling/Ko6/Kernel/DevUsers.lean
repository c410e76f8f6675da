import Ko6.Kernel.Kdev

set_option autoImplicit false

/-!
# Kernel: who asks for a device

`kernel/kdev.h` has a macro for each kind of device that gives the driver's data of the
device with a minor number.  It takes the field `data` of what `dev_get` returns, and the
callers compare the pointer with `NULL` to see that there is no such device.  The field is
16 bytes behind the beginning of `struct device_s`; for the `NULL` of `dev_get` the pointer
is 16, and not `NULL`.

A call is followed up to the function of the driver that it calls.  The fields of the
devices are in the memory `word`; what is kept of a call is the devices of which it reads
fields.
-/

namespace Ko6.Kernel.DevUsers

open Ko6.Lib Ko6.Common

/-! ## Functions -/

/-- The functions of the drivers. -/
inductive DriverFn where
  | blockdevRead | chardevRead | chardevWrite | dmaMemcpy
  deriving DecidableEq

/-- How a call goes on: it returns `NULL` or `-1`, it calls `memcpy`, or the function of
the driver with the device and the other arguments. -/
inductive DevResult where
  | fail
  | memcpy (dest src n : BitVec 32)
  | driver (fn : DriverFn) (dev : Nat) (args : List (BitVec 32))
  deriving DecidableEq

/-- The result, and the devices of which fields have been read. -/
structure DevCall where
  result : DevResult
  reads : List Nat

/-- `&p->data` of a `device_t *p`, with 0 for `NULL`. -/
def devData (p : Option Nat) : Nat := p.getD 0 + 16

/-- The checks of `dma_memcpy_user`. -/
def DmaRefuses (dest src n : BitVec 32) : Prop :=
  src ≥ 0x80000000 ∨ dest ≥ 0x80000000 ∨ src + n ≥ 0x80000000 ∨ dest + n ≥ 0x80000000 ∨
    n ≥ 0x80000000

instance (dest src n : BitVec 32) : Decidable (DmaRefuses dest src n) :=
  inferInstanceAs (Decidable (_ ∨ _))

/-- `dma_memcpy_user` from the test of the pointer on. -/
def dmaMemcpyWith (dma : Nat) (dest src n : BitVec 32) : DevCall :=
  if dma = 0 then ⟨.memcpy dest src (n * 4), []⟩
  else ⟨.driver .dmaMemcpy dma [dest, src, n], [dma]⟩

section
variable (fuel : Nat) (s : Kdev)

/-- `blockdev_get`. -/
def blockdevGet (minor : BitVec 32) : Option Nat := (devGet fuel s .blockDev minor).map devData

/-- `chardev_get`. -/
def chardevGet (minor : BitVec 32) : Option Nat := (devGet fuel s .charDev minor).map devData

/-- `dmadev_get`. -/
def dmadevGet (minor : BitVec 32) : Option Nat := (devGet fuel s .dmaDev minor).map devData

/-- `chardev_count`. -/
def chardevCount : Option (BitVec 32) := (devNextMinor fuel s .charDev).map (· - 1)

/-- `blockio_get` up to the driver, with the `page` that `kmalloc` gives.  The fields `ops`
of a `blockdev_t` and `blockdev_read` of its functions are at 28 and 8. -/
def blockioGet (word : Nat → BitVec 32) (page bdev lba : BitVec 32) : Option DevCall := do
  let dev ← blockdevGet fuel s bdev
  if dev = 0 then some ⟨.fail, []⟩
  else if word (dev + 28) = 0 then some ⟨.fail, [dev]⟩
  else if word ((word (dev + 28)).toNat + 8) = 0 then some ⟨.fail, [dev]⟩
  else if page = 0 then some ⟨.fail, [dev]⟩
  else some ⟨.driver .blockdevRead dev [lba, page, 1], [dev]⟩

/-- `tty_read` and `tty_write`, which call `fn`. -/
def ttyCall (fn : DriverFn) (tty buf count : BitVec 32) : Option DevCall := do
  let last ← chardevCount fuel s
  let tty := if tty > last then 0 else tty
  let cdev ← chardevGet fuel s tty
  if cdev ≠ 0 then some ⟨.driver fn cdev [buf, count], [cdev]⟩
  else some ⟨.fail, []⟩

/-- `tty_read`. -/
def ttyRead (tty buf count : BitVec 32) : Option DevCall := ttyCall fuel s .chardevRead tty buf count

/-- `tty_write`. -/
def ttyWrite (tty buf count : BitVec 32) : Option DevCall := ttyCall fuel s .chardevWrite tty buf count

/-- `dma_memcpy_user` up to the driver. -/
def dmaMemcpyUser (dest src n : BitVec 32) : Option DevCall :=
  if DmaRefuses dest src n then some ⟨.fail, []⟩
  else (dmadevGet fuel s 0).map fun dma => dmaMemcpyWith dma dest src n

end

/-! ## What a call should do -/

/-- There is a live device of the tag with the minor number. -/
def Live (s : Kdev) (tag : DevTag) (minor : BitVec 32) : Prop :=
  ∃ dev, s.given dev = true ∧ (s.device dev).tag = tag ∧ (s.device dev).minor = minor

/-- The data of a live device. -/
def IsDevice (s : Kdev) (p : Nat) : Prop := ∃ dev, s.given dev = true ∧ p = dev + 16

/-- The call ends with the result `r` when the device is `Absent`, and reads fields of live
devices alone. -/
def Reported (s : Kdev) (Absent : Prop) (r : DevResult) (call : Option DevCall) : Prop :=
  ∃ c, call = some c ∧ (Absent → c.result = r) ∧ ∀ p ∈ c.reads, IsDevice s p

/-- `devs` are the live devices in the order of the list. -/
structure Listed (s : Kdev) (devs : List Nat) : Prop where
  list : Rep devCells s .devList (devs.map .list)
  live : ∀ dev, s.given dev = true ↔ dev ∈ devs

/-- The number is greater than that of the last character device of the list. -/
def Beyond (s : Kdev) (devs : List Nat) (tty : BitVec 32) : Prop :=
  ∃ ys last zs, devs = ys ++ last :: zs ∧ (s.device last).tag = .charDev ∧
    (∀ dev ∈ zs, (s.device dev).tag ≠ .charDev) ∧ (s.device last).minor < tty

/-- There is the character device of the number, or the first one for a number beyond the
last one. -/
def TtyLive (s : Kdev) (devs : List Nat) (tty : BitVec 32) : Prop :=
  (¬ Beyond s devs tty ∧ Live s .charDev tty) ∨ (Beyond s devs tty ∧ Live s .charDev 0)

/-! ## Lookups -/

section
variable {fuel : Nat} {s s' : Kdev} {devs : List Nat} {tag : DevTag} {minor : BitVec 32} {dev p : Nat}

/-- `dev_get` finds a live device, or there is none. -/
theorem get_cases (h : Listed s devs) (hfuel : devs.length < fuel) (tag : DevTag)
    (minor : BitVec 32) :
    (Live s tag minor ∧ ∃ dev, s.given dev = true ∧ devGet fuel s tag minor = some (some dev)) ∨
      (¬ Live s tag minor ∧ devGet fuel s tag minor = some none) := by
  have hget : devGet fuel s tag minor = some (devs.find? fun dev =>
      (s.device dev).tag = tag ∧ (s.device dev).minor = minor) := by
    unfold devGet
    rw [h.list.search (by simpa using hfuel), List.find?_map]
    simp only [Option.bind_eq_bind, Option.bind_some, Option.map_map]
    exact congrArg some Option.map_id'
  rw [hget]
  cases hfind : devs.find? fun dev => (s.device dev).tag = tag ∧ (s.device dev).minor = minor with
  | none =>
    rw [List.find?_eq_none] at hfind
    refine .inr ⟨?_, rfl⟩
    rintro ⟨dev, hgiven, hdev⟩
    exact hfind dev ((h.live dev).mp hgiven) (decide_eq_true hdev)
  | some dev =>
    have hgiven := (h.live dev).mpr (List.mem_of_find?_eq_some hfind)
    exact .inl ⟨⟨dev, hgiven, of_decide_eq_true (List.find?_some hfind :)⟩, dev, hgiven, rfl⟩

/-- The pointer of a macro is that of a live device, or 16. -/
theorem data_cases (h : Listed s devs) (hfuel : devs.length < fuel) (tag : DevTag)
    (minor : BitVec 32) :
    (Live s tag minor ∧ ∃ p, p ≠ 0 ∧ IsDevice s p ∧ (devGet fuel s tag minor).map devData = some p) ∨
      (¬ Live s tag minor ∧ (devGet fuel s tag minor).map devData = some 16) := by
  rcases get_cases h hfuel tag minor with ⟨hlive, dev, hgiven, hget⟩ | ⟨hlive, hget⟩
  · refine .inl ⟨hlive, dev + 16, by omega, ⟨dev, hgiven, rfl⟩, ?_⟩
    rw [hget]
    rfl
  · refine .inr ⟨hlive, ?_⟩
    rw [hget]
    rfl

/-- No live device is at `NULL`, so none has its data at 16. -/
theorem not_isDevice_null (hkmalloc : ∀ dev, s.given dev = true → dev ≠ 0) : ¬ IsDevice s 16 := by
  rintro ⟨dev, hgiven, heq⟩
  exact hkmalloc dev hgiven (by omega)

/-- `dev_next_minor` is one more than the minor number of the last device of the tag. -/
theorem nextMinor_cases (hlist : Rep devCells s .devList (devs.map .list))
    (hfuel : devs.length < fuel) (tag : DevTag) :
    (∃ ys last zs, devs = ys ++ last :: zs ∧ (s.device last).tag = tag ∧
      (∀ dev ∈ zs, (s.device dev).tag ≠ tag) ∧
      devNextMinor fuel s tag = some ((s.device last).minor + 1)) ∨
    ((∀ dev ∈ devs, (s.device dev).tag ≠ tag) ∧ devNextMinor fuel s tag = some 0) := by
  unfold devNextMinor
  rw [hlist.searchRev (by simpa using hfuel), ← List.map_reverse, List.find?_map]
  cases hfind : devs.reverse.find? ((fun item : DevCell =>
      decide ((s.device item.device).tag = tag)) ∘ DevCell.list) with
  | none =>
    rw [List.find?_eq_none] at hfind
    refine .inr ⟨fun dev hdev htag => ?_, rfl⟩
    exact hfind dev (List.mem_reverse.mpr hdev) (decide_eq_true htag)
  | some last =>
    obtain ⟨hp, ys, zs, hsplit, hys⟩ := List.find?_eq_some_iff_append.mp hfind
    refine .inl ⟨zs.reverse, last, ys.reverse, ?_, of_decide_eq_true hp, fun dev hdev hdtag => ?_, rfl⟩
    · rw [← List.reverse_reverse devs, hsplit]
      simp
    · have hnot := hys dev (List.mem_reverse.mp hdev)
      simp [DevCell.device, hdtag] at hnot

/-- The last device of a tag is one. -/
theorem last_unique {ys ys' zs zs' : List Nat} {last last' : Nat}
    (heq : ys ++ last :: zs = ys' ++ last' :: zs') (hlast : (s.device last).tag = tag)
    (hlast' : (s.device last').tag = tag) (hzs : ∀ dev ∈ zs, (s.device dev).tag ≠ tag)
    (hzs' : ∀ dev ∈ zs', (s.device dev).tag ≠ tag) : last = last' := by
  rcases List.append_eq_append_iff.mp heq with ⟨as, -, has⟩ | ⟨as, -, has⟩
  · cases as with
    | nil => exact (List.cons.inj has).1
    | cons a as => exact absurd hlast' (hzs last' (by simp [(List.cons.inj has).2]))
  · cases as with
    | nil => exact (List.cons.inj has).1.symm
    | cons a as => exact absurd hlast (hzs' last (by simp [(List.cons.inj has).2]))

/-- The number that `tty_read` looks up has a live device in the case of `TtyLive`. -/
theorem ttyLive_iff (hlist : Rep devCells s .devList (devs.map .list)) (hfuel : devs.length < fuel)
    (tty : BitVec 32) : ∃ last, chardevCount fuel s = some last ∧
      (Live s .charDev (if tty > last then 0 else tty) ↔ TtyLive s devs tty) := by
  -- whether the number is beyond decides which of the two is looked up
  obtain ⟨last, hcount, hbeyond⟩ : ∃ last, chardevCount fuel s = some last ∧
      (tty > last ↔ Beyond s devs tty) := by
    rcases nextMinor_cases hlist hfuel .charDev with ⟨ys, last, zs, hsplit, htag, hzs, hnext⟩ |
      ⟨hnone, hnext⟩
    · refine ⟨(s.device last).minor, by rw [chardevCount, hnext]; simp, ?_⟩
      constructor
      · exact fun hlt => ⟨ys, last, zs, hsplit, htag, hzs, hlt⟩
      · rintro ⟨ys', last', zs', hsplit', htag', hzs', hlt⟩
        rw [last_unique (hsplit.symm.trans hsplit') htag htag' hzs hzs']
        exact hlt
    · refine ⟨0 - 1, by rw [chardevCount, hnext]; rfl, iff_of_false ?_ ?_⟩
      · rw [gt_iff_lt, BitVec.lt_def]
        have := tty.isLt
        simp only [BitVec.ofNat_eq_ofNat, BitVec.toNat_sub, BitVec.toNat_ofNat]
        omega
      · rintro ⟨ys, last, zs, hsplit, htag, -, -⟩
        exact hnone last (by simp [hsplit]) htag
  refine ⟨last, hcount, ?_⟩
  unfold TtyLive
  by_cases hlt : tty > last
  · rw [if_pos hlt]
    simp [hbeyond.mp hlt]
  · rw [if_neg hlt]
    simp [mt hbeyond.mpr hlt]

/-! ## Calls -/

/-- `blockio_get` reads fields of what the table gives it, if that is not `NULL`. -/
theorem blockioGet_reads {bdev : BitVec 32} {p : Nat} (hget : blockdevGet fuel s bdev = some p)
    (hp : p ≠ 0) (word : Nat → BitVec 32) (page lba : BitVec 32) :
    ∃ c, blockioGet fuel s word page bdev lba = some c ∧ c.reads = [p] := by
  rw [blockioGet, hget, Option.bind_eq_bind, Option.bind_some, if_neg hp]
  split
  · exact ⟨_, rfl, rfl⟩
  · split
    · exact ⟨_, rfl, rfl⟩
    · split
      · exact ⟨_, rfl, rfl⟩
      · exact ⟨_, rfl, rfl⟩

theorem blockioGet_iff (h : Listed s devs) (hfuel : devs.length < fuel)
    (hkmalloc : ∀ dev, s.given dev = true → dev ≠ 0) (word : Nat → BitVec 32)
    (page bdev lba : BitVec 32) :
    Reported s (¬ Live s .blockDev bdev) .fail (blockioGet fuel s word page bdev lba) ↔
      Live s .blockDev bdev := by
  rcases data_cases h hfuel .blockDev bdev with ⟨hlive, p, hp, hdev, hget⟩ | ⟨hlive, hget⟩
  · obtain ⟨c, hcall, hreads⟩ := blockioGet_reads hget hp word page lba
    refine iff_of_true ⟨c, hcall, fun habsent => absurd hlive habsent, fun q hq => ?_⟩ hlive
    rw [hreads] at hq
    exact List.mem_singleton.mp hq ▸ hdev
  · obtain ⟨c, hcall, hreads⟩ := blockioGet_reads hget (by decide) word page lba
    refine iff_of_false ?_ hlive
    rintro ⟨c', hcall', -, hdevices⟩
    rw [hcall] at hcall'
    obtain rfl := Option.some.inj hcall'
    exact not_isDevice_null hkmalloc (hdevices 16 (hreads ▸ List.mem_singleton.mpr rfl))

theorem ttyCall_iff (h : Listed s devs) (hfuel : devs.length < fuel)
    (hkmalloc : ∀ dev, s.given dev = true → dev ≠ 0) (fn : DriverFn) (tty buf count : BitVec 32) :
    Reported s (¬ Live s .charDev tty ∧ ¬ Live s .charDev 0) .fail
      (ttyCall fuel s fn tty buf count) ↔ TtyLive s devs tty := by
  obtain ⟨last, hlast, hiff⟩ := ttyLive_iff h.list hfuel tty
  rw [← hiff]
  unfold ttyCall chardevGet
  simp only [hlast, Option.bind_eq_bind, Option.bind_some]
  rcases data_cases h hfuel .charDev (if tty > last then 0 else tty) with
    ⟨hlive, p, hp, hdev, hget⟩ | ⟨hlive, hget⟩
  · refine iff_of_true ?_ hlive
    rw [hget, Option.bind_some, if_pos hp]
    refine ⟨_, rfl, fun habsent => ?_, fun q hq => List.mem_singleton.mp hq ▸ hdev⟩
    split at hlive
    · exact absurd hlive habsent.2
    · exact absurd hlive habsent.1
  · refine iff_of_false ?_ hlive
    rintro ⟨c, hcall, -, hreads⟩
    rw [hget, Option.bind_some, if_pos (by decide)] at hcall
    obtain rfl := Option.some.inj hcall
    exact not_isDevice_null hkmalloc (hreads 16 (by simp))

theorem dmaMemcpyUser_iff (h : Listed s devs) (hfuel : devs.length < fuel)
    (hkmalloc : ∀ dev, s.given dev = true → dev ≠ 0) (dest src n : BitVec 32) :
    Reported s (¬ DmaRefuses dest src n ∧ ∀ minor, ¬ Live s .dmaDev minor)
      (.memcpy dest src (n * 4)) (dmaMemcpyUser fuel s dest src n) ↔
      DmaRefuses dest src n ∨ Live s .dmaDev 0 := by
  unfold dmaMemcpyUser dmadevGet
  by_cases hrefuses : DmaRefuses dest src n
  · rw [if_pos hrefuses]
    exact iff_of_true ⟨_, rfl, fun habsent => absurd hrefuses habsent.1, by simp⟩ (.inl hrefuses)
  · rw [if_neg hrefuses]
    rcases data_cases h hfuel .dmaDev 0 with ⟨hlive, p, hp, hdev, hget⟩ | ⟨hlive, hget⟩
    · refine iff_of_true ?_ (.inr hlive)
      rw [hget, Option.map_some, dmaMemcpyWith, if_neg hp]
      exact ⟨_, rfl, fun habsent => absurd hlive (habsent.2 0),
        fun q hq => List.mem_singleton.mp hq ▸ hdev⟩
    · refine iff_of_false ?_ (fun hor => hor.elim hrefuses hlive)
      rintro ⟨c, hcall, -, hreads⟩
      rw [hget, Option.map_some, dmaMemcpyWith, if_neg (by decide)] at hcall
      obtain rfl := Option.some.inj hcall
      exact not_isDevice_null hkmalloc (hreads 16 (by simp))

/-! ## Runs -/

/-- `dev_alloc` adds the device at the end of the list. -/
theorem Listed.alloc (h : Listed s devs) (hfuel : devs.length < fuel) (hok : s.given dev = false) :
    ∃ s', devAlloc fuel s tag dev = some s' ∧ Listed s' (devs ++ [dev]) := by
  have hnew : dev ∉ devs := fun hmem => by simp [(h.live dev).mpr hmem] at hok
  -- the fields of the new device are no part of the list
  let s₁ : Kdev := { s with
    given := Function.update s.given dev true
    device := Function.update s.device dev { s.device dev with tag := tag } }
  have hlist₁ : Rep devCells s₁ .devList (devs.map .list) :=
    h.list.congr (fun _ _ => rfl) fun _ _ => rfl
  obtain ⟨minor, hminor⟩ : ∃ minor, devNextMinor fuel s₁ tag = some minor := by
    rcases nextMinor_cases hlist₁ hfuel tag with ⟨_, _, _, _, _, _, hnext⟩ | ⟨_, hnext⟩
    · exact ⟨_, hnext⟩
    · exact ⟨_, hnext⟩
  let s₂ : Kdev := { s₁ with
    device := Function.update s₁.device dev { s₁.device dev with minor := minor } }
  have hlist₂ : Rep devCells s₂ .devList (devs.map .list) :=
    h.list.congr (fun _ _ => rfl) fun _ _ => rfl
  have hitem : DevCell.list dev ∉ DevCell.devList :: devs.map .list := by
    simpa using hnew
  refine ⟨listAddlast devCells s₂ .devList (.list dev), ?_, ?_, fun d => ?_⟩
  · unfold devAlloc
    change (devNextMinor fuel s₁ tag).bind _ = _
    rw [hminor]
    rfl
  · rw [List.map_append]
    exact hlist₂.addlast trivial hitem
  · change Function.update s.given dev true d = true ↔ _
    rcases eq_or_ne d dev with rfl | hne
    · simp
    · rw [Function.update_of_ne hne, h.live, List.mem_append, List.mem_singleton]
      exact ⟨.inl, fun hor => hor.resolve_right hne⟩

/-- `dev_free` takes the device out of the list. -/
theorem Listed.free (h : Listed s devs) (hok : s.given dev = true) :
    ∃ devs', Listed (devFree s dev) devs' ∧ devs'.length ≤ devs.length := by
  obtain ⟨ys, zs, hsplit⟩ := List.append_of_mem ((h.live dev).mp hok)
  subst hsplit
  have hrep := h.list
  rw [List.map_append, List.map_cons] at hrep
  have hnodup : (ys ++ dev :: zs).Nodup :=
    List.Nodup.of_map _ (List.nodup_cons.mp h.list.ring.nodup).2
  refine ⟨ys ++ zs, ⟨?_, fun d => ?_⟩, by simp⟩
  · rw [List.map_append]
    exact hrep.unlink.congr (fun _ _ => rfl) fun _ _ => rfl
  · change Function.update s.given dev false d = true ↔ _
    rcases eq_or_ne d dev with rfl | hne
    · have hnot : d ∉ ys ++ zs := (List.nodup_cons.mp (List.nodup_middle.mp hnodup)).1
      simp [hnot]
    · rw [Function.update_of_ne hne, h.live]
      simp [hne]

/-- A permitted call; the live devices stay objects of `kmalloc`. -/
theorem Listed.step {op : KdevOp} (h : Listed s devs) (hne : ∀ dev, s.given dev = true → dev ≠ 0)
    (hfuel : devs.length < fuel) (hok : op.Ok s) (hkmalloc : ∀ tag dev, op = .alloc tag dev → dev ≠ 0) :
    ∃ s' devs', kdevDo fuel s op = some s' ∧ Listed s' devs' ∧ devs'.length ≤ devs.length + 1 ∧
      ∀ dev, s'.given dev = true → dev ≠ 0 := by
  cases op with
  | alloc tag dev =>
    have hex : ∃ s', devAlloc fuel s tag dev = some s' ∧ Listed s' (devs ++ [dev]) :=
      h.alloc hfuel hok
    obtain ⟨s', halloc, h'⟩ := hex
    refine ⟨s', _, halloc, h', by simp, fun d hd => ?_⟩
    rcases List.mem_append.mp ((h'.live d).mp hd) with hmem | hmem
    · exact hne d ((h.live d).mpr hmem)
    · rw [List.mem_singleton.mp hmem]
      exact hkmalloc tag dev rfl
  | free dev =>
    obtain ⟨devs', h', hlen⟩ := h.free hok
    refine ⟨devFree s dev, devs', rfl, h', by omega, fun d hd => ?_⟩
    change Function.update s.given dev false d = true at hd
    rcases eq_or_ne d dev with rfl | hd'
    · rw [Function.update_self] at hd
      exact absurd hd (by decide)
    · rw [Function.update_of_ne hd'] at hd
      exact hne d hd

theorem Listed.run {ops : List KdevOp} (h : Listed s devs)
    (hne : ∀ dev, s.given dev = true → dev ≠ 0) (hperm : KdevPermitted fuel ops s)
    (hkmalloc : ∀ tag dev, KdevOp.alloc tag dev ∈ ops → dev ≠ 0)
    (hfuel : devs.length + ops.length < fuel) :
    ∃ s' devs', kdevRun fuel ops s = some s' ∧ Listed s' devs' ∧ devs'.length < fuel ∧
      ∀ dev, s'.given dev = true → dev ≠ 0 := by
  induction ops generalizing s devs with
  | nil => exact ⟨s, devs, rfl, h, by simpa using hfuel, hne⟩
  | cons op ops ih =>
    obtain ⟨hok, hrest⟩ := hperm
    rw [List.length_cons] at hfuel
    have hlt : devs.length < fuel := by omega
    obtain ⟨s₁, devs₁, hdo, h₁, hlen, hne₁⟩ := h.step hne hlt hok
      fun tag dev heq => hkmalloc tag dev (by simp [heq])
    obtain ⟨s', devs', hrun, h'⟩ := ih h₁ hne₁ (hrest s₁ hdo)
      (fun tag dev hmem => hkmalloc tag dev (List.mem_cons_of_mem op hmem)) (by omega)
    refine ⟨s', devs', ?_, h'⟩
    rw [kdevRun, hdo, Option.bind_some]
    exact hrun

theorem listed_init (device : Nat → Device) : Listed (kdevInit device) [] where
  list := ⟨isRing_nil rfl rfl, fun _ _ => trivial⟩
  live dev := by simp [kdevInit]

end

/-- In every registry that is made by `dev_alloc` and `dev_free`, a call reports the absence
of its device, and reads no field of it, exactly when the device is there. -/
theorem absent_device_reported_iff {fuel : Nat} {ops : List KdevOp} (device : Nat → Device)
    (hperm : KdevPermitted fuel ops (kdevInit device))
    (hkmalloc : ∀ tag dev, KdevOp.alloc tag dev ∈ ops → dev ≠ 0) (hfuel : ops.length < fuel) :
    ∃ s devs, kdevRun fuel ops (kdevInit device) = some s ∧ Listed s devs ∧
      (∀ word page bdev lba, Reported s (¬ Live s .blockDev bdev) .fail
        (blockioGet fuel s word page bdev lba) ↔ Live s .blockDev bdev) ∧
      (∀ tty buf count, Reported s (¬ Live s .charDev tty ∧ ¬ Live s .charDev 0) .fail
        (ttyRead fuel s tty buf count) ↔ TtyLive s devs tty) ∧
      (∀ tty buf count, Reported s (¬ Live s .charDev tty ∧ ¬ Live s .charDev 0) .fail
        (ttyWrite fuel s tty buf count) ↔ TtyLive s devs tty) ∧
      ∀ dest src n, Reported s (¬ DmaRefuses dest src n ∧ ∀ minor, ¬ Live s .dmaDev minor)
        (.memcpy dest src (n * 4)) (dmaMemcpyUser fuel s dest src n) ↔
          DmaRefuses dest src n ∨ Live s .dmaDev 0 := by
  obtain ⟨s, devs, hrun, h, hlt, hne⟩ := (listed_init device).run
    (fun _ hd => absurd hd (by simp [kdevInit])) hperm hkmalloc (by simpa using hfuel)
  exact ⟨s, devs, hrun, h, blockioGet_iff h hlt hne, ttyCall_iff h hlt hne .chardevRead,
    ttyCall_iff h hlt hne .chardevWrite, dmaMemcpyUser_iff h hlt hne⟩

/-- The system without any device: `blockio_get`, `tty_read`, `tty_write` and
`dma_memcpy_user` take the address 16 for a device and read its fields. -/
theorem absent_device_used :
    let s := kdevInit fun _ => ⟨.blockDev, 0⟩
    (∀ tag minor, ¬ Live s tag minor) ∧
    (∀ word, ¬ Reported s (¬ Live s .blockDev 0) .fail (blockioGet 1 s word 4096 0 0)) ∧
    ttyRead 1 s 0 512 1 = some ⟨.driver .chardevRead 16 [512, 1], [16]⟩ ∧
    ttyWrite 1 s 0 512 1 = some ⟨.driver .chardevWrite 16 [512, 1], [16]⟩ ∧
    dmaMemcpyUser 1 s 512 1024 8 = some ⟨.driver .dmaMemcpy 16 [512, 1024, 8], [16]⟩ ∧
    ¬ Reported s (¬ Live s .charDev 0 ∧ ¬ Live s .charDev 0) .fail (ttyRead 1 s 0 512 1) ∧
    ¬ Reported s (¬ Live s .charDev 0 ∧ ¬ Live s .charDev 0) .fail (ttyWrite 1 s 0 512 1) ∧
    ¬ Reported s (¬ DmaRefuses 512 1024 8 ∧ ∀ minor, ¬ Live s .dmaDev minor)
      (.memcpy 512 1024 (8 * 4)) (dmaMemcpyUser 1 s 512 1024 8) := by
  intro s
  have hnone : ∀ tag minor, ¬ Live s tag minor := by
    rintro tag minor ⟨dev, hdev, -⟩
    exact absurd hdev (by simp [s, kdevInit])
  have hnot : ¬ IsDevice s 16 := not_isDevice_null fun _ hd => absurd hd (by simp [s, kdevInit])
  have hread : ttyRead 1 s 0 512 1 = some ⟨.driver .chardevRead 16 [512, 1], [16]⟩ := rfl
  have hwrite : ttyWrite 1 s 0 512 1 = some ⟨.driver .chardevWrite 16 [512, 1], [16]⟩ := rfl
  have hdma : dmaMemcpyUser 1 s 512 1024 8 = some ⟨.driver .dmaMemcpy 16 [512, 1024, 8], [16]⟩ :=
    rfl
  have h : Listed s [] := listed_init fun _ => ⟨.blockDev, 0⟩
  have hne : ∀ dev, s.given dev = true → dev ≠ 0 := fun _ hd => absurd hd (by simp [s, kdevInit])
  refine ⟨hnone, fun word hrep => ?_, hread, hwrite, hdma, ?_, ?_, ?_⟩
  · exact hnone _ _ ((blockioGet_iff h (by decide) hne word 4096 0 0).mp hrep)
  · rintro ⟨c, hcall, -, hreads⟩
    obtain rfl := Option.some.inj (hread.symm.trans hcall)
    exact hnot (hreads 16 (by simp))
  · rintro ⟨c, hcall, -, hreads⟩
    obtain rfl := Option.some.inj (hwrite.symm.trans hcall)
    exact hnot (hreads 16 (by simp))
  · rintro ⟨c, hcall, -, hreads⟩
    obtain rfl := Option.some.inj (hdma.symm.trans hcall)
    exact hnot (hreads 16 (by simp))

/-- A disk, a terminal, and a DMA that goes away. -/
def diskAndTty : List KdevOp :=
  [.alloc .blockDev 4096, .alloc .dmaDev 8192, .alloc .charDev 12288, .free 8192]

/-- The disk and the terminal are used right. -/
theorem absent_device_reported_iff_tty :
    ∃ s, kdevRun 5 diskAndTty (kdevInit fun _ => ⟨.blockDev, 0⟩) = some s ∧
      (∀ word, Reported s (¬ Live s .blockDev 0) .fail (blockioGet 5 s word 16384 0 3)) ∧
      Reported s (¬ Live s .charDev 0 ∧ ¬ Live s .charDev 0) .fail (ttyRead 5 s 0 512 1) ∧
      Reported s (¬ Live s .charDev 0 ∧ ¬ Live s .charDev 0) .fail (ttyWrite 5 s 0 512 1) ∧
      Reported s (¬ DmaRefuses 512 1024 0x80000000 ∧ ∀ minor, ¬ Live s .dmaDev minor)
        (.memcpy 512 1024 (0x80000000 * 4)) (dmaMemcpyUser 5 s 512 1024 0x80000000) := by
  have hperm : KdevPermitted 5 diskAndTty (kdevInit fun _ => ⟨.blockDev, 0⟩) := by decide +kernel
  have hkmalloc : ∀ tag dev, KdevOp.alloc tag dev ∈ diskAndTty → dev ≠ 0 := by
    intro tag dev hmem
    simp only [diskAndTty, List.mem_cons, KdevOp.alloc.injEq, reduceCtorEq, List.not_mem_nil,
      or_false] at hmem
    omega
  obtain ⟨s, devs, hrun, -, hblock, hread, hwrite, hdma⟩ := absent_device_reported_iff
    (fun _ => ⟨.blockDev, 0⟩) hperm hkmalloc (by decide)
  have hfields : (kdevRun 5 diskAndTty (kdevInit fun _ => ⟨.blockDev, 0⟩)).map (fun s =>
      ((s.given 4096, (s.device 4096).tag, (s.device 4096).minor),
        (s.given 12288, (s.device 12288).tag, (s.device 12288).minor))) =
      some ((true, .blockDev, 0), (true, .charDev, 0)) := by decide +kernel
  rw [hrun, Option.map_some, Option.some.injEq] at hfields
  simp only [Prod.mk.injEq] at hfields
  obtain ⟨hdisk, htty⟩ := hfields
  have hlive : Live s .charDev 0 := ⟨12288, htty⟩
  have httyLive : TtyLive s devs 0 := by
    rcases Classical.em (Beyond s devs 0) with hbeyond | hbeyond
    · exact .inr ⟨hbeyond, hlive⟩
    · exact .inl ⟨hbeyond, hlive⟩
  exact ⟨s, hrun, fun word => (hblock word 16384 0 3).mpr ⟨4096, hdisk⟩,
    (hread 0 512 1).mpr httyLive, (hwrite 0 512 1).mpr httyLive,
    (hdma 512 1024 0x80000000).mpr (.inl (by decide))⟩

end Ko6.Kernel.DevUsers
