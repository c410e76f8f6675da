import Mathlib.Data.BitVec
import Mathlib.Tactic.Common

set_option autoImplicit false

/-!
# Hal: the requests of `hal/devices/blockdev/soclib-bd.c`

The disk counts in physical blocks, the kernel in logical ones of `ppb` physical blocks.
`soclib_bd_read` and `soclib_bd_write` compare the 32-bit sum of the first block and the
number of blocks with the size of the disk, and let the controller move the physical
blocks.  The comparison refuses the sum that is equal to the size, which a request up to
the end of the disk has, and a sum that wraps passes it.

The status register is the list of the values that its reads give.
-/

namespace Ko6.Hal

/-! ## Functions -/

/-- `enum bdops_e`. -/
inductive BdOp where
  | noop | read | write
  deriving DecidableEq

/-- `enum bdstatus_e`. -/
inductive BdStatus where
  | idle | busy | readSuccess | writeSuccess | readError | writeError | error
  deriving DecidableEq

/-- What a function returns: 0, `-EINVAL` or `-EIO`. -/
inductive BdResult where
  | ok | einval | eio
  deriving DecidableEq

/-- The registers of the controller that say what the disk is. -/
structure BdGeometry where
  size : BitVec 32
  blockSize : BitVec 32

/-- The registers that are written for a transfer. -/
structure BdRegs where
  buffer : BitVec 32
  pba : BitVec 32
  count : BitVec 32
  op : BdOp
  deriving DecidableEq

/-- `blockdev_t`, as far as `soclib_bd_init` sets it, but for its functions. -/
structure Blockdev where
  base : BitVec 32
  minor : BitVec 32
  blocks : BitVec 32
  blockSize : BitVec 32
  ppb : BitVec 32

/-- A call: what is assigned to `errno`, the cache lines that are dropped, the registers
that are written, and the result, with `none` while the controller is busy. -/
structure BdCall where
  errno : Option BdResult
  inval : Option (BitVec 32 × BitVec 32)
  regs : Option BdRegs
  result : Option BdResult
  deriving DecidableEq

/-- `soclib_bd_init`; a physical block is not larger than a logical one, so that no divisor is
zero. -/
def soclibBdInit (minor base blockSize : BitVec 32) (regs : BdGeometry) : Blockdev :=
  let ppb := blockSize / regs.blockSize
  { base := base
    minor := minor
    blocks := regs.size / ppb
    blockSize := blockSize
    ppb := ppb }

/-- The loop that waits for the controller: the first status that is not `BD_BUSY`. -/
def bdPoll : List BdStatus → Option BdStatus
  | [] => none
  | status :: statuses => if status = .busy then bdPoll statuses else some status

/-- `soclib_bd_read`, with `none` for a device that is `NULL`. -/
def soclibBdRead (bdev : Option Blockdev) (lba buf count : BitVec 32) (statuses : List BdStatus) :
    BdCall :=
  match bdev with
  | none => ⟨some .einval, none, none, some .einval⟩
  | some bdev =>
    if buf = 0 ∨ lba + count ≥ bdev.blocks then ⟨some .einval, none, none, some .einval⟩
    else
      let regs := { buffer := buf, pba := lba * bdev.ppb, count := count * bdev.ppb, op := .read }
      match bdPoll statuses with
      | none => ⟨none, some (buf, count), some regs, none⟩
      | some status =>
        if status ≠ .readSuccess then ⟨some .eio, some (buf, count), some regs, some .eio⟩
        else ⟨none, some (buf, count), some regs, some .ok⟩

/-- `soclib_bd_write`. -/
def soclibBdWrite (bdev : Option Blockdev) (lba buf count : BitVec 32) (statuses : List BdStatus) :
    BdCall :=
  match bdev with
  | none => ⟨none, none, none, some .einval⟩
  | some bdev =>
    if buf = 0 ∨ lba + count ≥ bdev.blocks then ⟨none, none, none, some .einval⟩
    else
      let regs := { buffer := buf, pba := lba * bdev.ppb, count := count * bdev.ppb, op := .write }
      match bdPoll statuses with
      | none => ⟨none, none, some regs, none⟩
      | some status =>
        if status ≠ .writeSuccess then ⟨some .eio, none, some regs, some .eio⟩
        else ⟨none, none, some regs, some .ok⟩

/-! ## What a request should do -/

/-- A request of blocks that are on the disk moves them to or from `buf`, and they are
physical blocks of the disk of `size`; any other one is refused and writes no register. -/
structure Admitted (size : BitVec 32) (bdev : Blockdev) (op : BdOp) (lba buf count : BitVec 32)
    (call : BdCall) : Prop where
  refused : bdev.blocks.toNat < lba.toNat + count.toNat ↔
    call.result = some .einval ∧ call.regs = none
  moved : lba.toNat + count.toNat ≤ bdev.blocks.toNat → ∃ regs, call.regs = some regs ∧
    regs.op = op ∧ regs.buffer = buf ∧ regs.pba.toNat = lba.toNat * bdev.ppb.toNat ∧
    regs.pba.toNat + regs.count.toNat = (lba.toNat + count.toNat) * bdev.ppb.toNat ∧
    regs.pba.toNat + regs.count.toNat ≤ size.toNat

/-- The request does not go up to the end of the disk, nor round the 32 bits to a block of
the disk. -/
def NotAtEdge (bdev : Blockdev) (lba count : BitVec 32) : Prop :=
  lba.toNat + count.toNat ≠ bdev.blocks.toNat ∧
    ¬ (2 ^ 32 ≤ lba.toNat + count.toNat ∧ lba.toNat + count.toNat < 2 ^ 32 + bdev.blocks.toNat)

instance (bdev : Blockdev) (lba count : BitVec 32) : Decidable (NotAtEdge bdev lba count) :=
  inferInstanceAs (Decidable (_ ∧ _))

section
variable {size lba buf count : BitVec 32} {bdev : Blockdev} {op : BdOp} {call : BdCall}

/-- The test of the code is right away from the two edges. -/
theorem notAtEdge_iff : NotAtEdge bdev lba count ↔
    (lba + count ≥ bdev.blocks ↔ bdev.blocks.toNat < lba.toNat + count.toNat) ∧
      lba.toNat + count.toNat ≠ bdev.blocks.toNat := by
  have hlba := lba.isLt
  have hcount := count.isLt
  have hblocks := bdev.blocks.isLt
  rw [NotAtEdge, ge_iff_le, BitVec.le_def, BitVec.toNat_add]
  rcases Nat.lt_or_ge (lba.toNat + count.toNat) (2 ^ 32) with hlt | hge
  · rw [Nat.mod_eq_of_lt hlt]
    omega
  · rw [Nat.mod_eq_sub_mod hge, Nat.mod_eq_of_lt (by omega)]
    omega

/-- A product with blocks of the disk does not wrap. -/
theorem toNat_mul_ppb {x : BitVec 32} (hx : x.toNat ≤ bdev.blocks.toNat)
    (hfits : bdev.blocks.toNat * bdev.ppb.toNat ≤ size.toNat) :
    (x * bdev.ppb).toNat = x.toNat * bdev.ppb.toNat := by
  rw [BitVec.toNat_mul]
  have hle := (Nat.mul_le_mul_right bdev.ppb.toNat hx).trans hfits
  exact Nat.mod_eq_of_lt (hle.trans_lt size.isLt)

/-- A call that tests the sum, and programs the transfer when the test is passed. -/
theorem admitted_iff (hfits : bdev.blocks.toNat * bdev.ppb.toNat ≤ size.toNat)
    (hrefused : lba + count ≥ bdev.blocks → call.result = some .einval ∧ call.regs = none)
    (hmoved : ¬ lba + count ≥ bdev.blocks →
      call.regs = some { buffer := buf, pba := lba * bdev.ppb, count := count * bdev.ppb, op := op }) :
    Admitted size bdev op lba buf count call ↔ NotAtEdge bdev lba count := by
  rw [notAtEdge_iff]
  -- the registers tell which way the test went
  have htest : lba + count ≥ bdev.blocks ↔ call.result = some .einval ∧ call.regs = none := by
    refine ⟨hrefused, fun h => ?_⟩
    by_contra hpassed
    rw [hmoved hpassed] at h
    exact nomatch h.2
  constructor
  · intro h
    refine ⟨htest.trans h.refused.symm, fun hend => ?_⟩
    obtain ⟨regs, hregs, -⟩ := h.moved (Nat.le_of_eq hend)
    have hpassed : ¬ lba + count ≥ bdev.blocks := fun hge => by
      rw [(hrefused hge).2] at hregs
      exact nomatch hregs
    rw [ge_iff_le, BitVec.le_def, BitVec.toNat_add, hend] at hpassed
    exact hpassed (Nat.le_of_eq (Nat.mod_eq_of_lt bdev.blocks.isLt).symm)
  · rintro ⟨hexact, hend⟩
    refine ⟨hexact.symm.trans htest, fun hle => ?_⟩
    have hpassed : ¬ lba + count ≥ bdev.blocks := fun hge =>
      absurd (hexact.mp hge) (Nat.not_lt.mpr hle)
    have hpba := toNat_mul_ppb (x := lba) (by omega) hfits
    have hcount := toNat_mul_ppb (x := count) (by omega) hfits
    refine ⟨_, hmoved hpassed, rfl, rfl, hpba, ?_, ?_⟩
    · rw [hpba, hcount, ← Nat.add_mul]
    · rw [hpba, hcount, ← Nat.add_mul]
      exact (Nat.mul_le_mul_right bdev.ppb.toNat hle).trans hfits

end

section
variable {minor base blockSize lba buf count : BitVec 32} {regs : BdGeometry}

/-- The logical blocks are on the disk. -/
theorem blocks_fit (minor base blockSize : BitVec 32) (regs : BdGeometry) :
    (soclibBdInit minor base blockSize regs).blocks.toNat *
      (soclibBdInit minor base blockSize regs).ppb.toNat ≤ regs.size.toNat := by
  rw [soclibBdInit, BitVec.toNat_udiv]
  exact Nat.div_mul_le_self _ _

/-- On every disk and for every request with a buffer, `soclib_bd_read` and
`soclib_bd_write` refuse what is not on the disk and move what is, exactly when the request
is at neither edge. -/
theorem soclibBd_admitted_iff (statuses : List BdStatus) (hbuf : buf ≠ 0) :
    (Admitted regs.size (soclibBdInit minor base blockSize regs) .read lba buf count
        (soclibBdRead (some (soclibBdInit minor base blockSize regs)) lba buf count statuses) ↔
      NotAtEdge (soclibBdInit minor base blockSize regs) lba count) ∧
    (Admitted regs.size (soclibBdInit minor base blockSize regs) .write lba buf count
        (soclibBdWrite (some (soclibBdInit minor base blockSize regs)) lba buf count statuses) ↔
      NotAtEdge (soclibBdInit minor base blockSize regs) lba count) := by
  have hfits := blocks_fit minor base blockSize regs
  generalize soclibBdInit minor base blockSize regs = bdev at *
  constructor
  · refine admitted_iff hfits (fun hge => ?_) fun hlt => ?_
    · rw [soclibBdRead, if_pos (.inr hge)]
      exact ⟨rfl, rfl⟩
    · rw [soclibBdRead, if_neg (not_or.mpr ⟨hbuf, hlt⟩)]
      split
      · rfl
      · split
        · rfl
        · rfl
  · refine admitted_iff hfits (fun hge => ?_) fun hlt => ?_
    · rw [soclibBdWrite, if_pos (.inr hge)]
      exact ⟨rfl, rfl⟩
    · rw [soclibBdWrite, if_neg (not_or.mpr ⟨hbuf, hlt⟩)]
      split
      · rfl
      · split
        · rfl
        · rfl

end

/-- A disk of 80 physical blocks of 512 bytes, with logical blocks of 4096 bytes. -/
def smallDisk : BdGeometry where
  size := 80
  blockSize := 512

/-- The last of the ten blocks is refused, and so many blocks from the last one on that the
sum wraps are not. -/
theorem soclibBd_not_admitted :
    let bdev := soclibBdInit 0 0x1000 4096 smallDisk
    bdev.blocks = 10 ∧ bdev.ppb = 8 ∧
    (soclibBdRead (some bdev) 9 64 1 [.readSuccess]).result = some .einval ∧
    (soclibBdWrite (some bdev) 9 64 1 [.writeSuccess]).result = some .einval ∧
    (soclibBdRead (some bdev) 9 64 0xFFFFFFF8 [.readSuccess]).result = some .ok ∧
    ¬ Admitted 80 bdev .read 9 64 1 (soclibBdRead (some bdev) 9 64 1 [.readSuccess]) ∧
    ¬ Admitted 80 bdev .write 9 64 1 (soclibBdWrite (some bdev) 9 64 1 [.writeSuccess]) ∧
    ¬ Admitted 80 bdev .read 9 64 0xFFFFFFF8
      (soclibBdRead (some bdev) 9 64 0xFFFFFFF8 [.readSuccess]) := by
  intro bdev
  refine ⟨by decide, by decide, by decide, by decide, by decide, fun h => ?_, fun h => ?_,
    fun h => ?_⟩
  · obtain ⟨regs, hregs, -⟩ := h.moved (by decide)
    exact nomatch hregs
  · obtain ⟨regs, hregs, -⟩ := h.moved (by decide)
    exact nomatch hregs
  · have hrefused := h.refused.mp (by decide)
    exact absurd hrefused (by decide)

/-- The first nine blocks can be read and written. -/
theorem soclibBd_admitted_iff_first :
    let bdev := soclibBdInit 0 0x1000 4096 smallDisk
    Admitted 80 bdev .read 0 64 9 (soclibBdRead (some bdev) 0 64 9 [.busy, .readSuccess]) ∧
    Admitted 80 bdev .write 0 64 9 (soclibBdWrite (some bdev) 0 64 9 [.busy, .readSuccess]) := by
  intro bdev
  have hbuf : (64 : BitVec 32) ≠ 0 := by decide
  have hread : Admitted smallDisk.size (soclibBdInit 0 0x1000 4096 smallDisk) .read 0 64 9
      (soclibBdRead (some (soclibBdInit 0 0x1000 4096 smallDisk)) 0 64 9 [.busy, .readSuccess]) :=
    (soclibBd_admitted_iff [.busy, .readSuccess] hbuf).1.mpr (by decide)
  have hwrite : Admitted smallDisk.size (soclibBdInit 0 0x1000 4096 smallDisk) .write 0 64 9
      (soclibBdWrite (some (soclibBdInit 0 0x1000 4096 smallDisk)) 0 64 9 [.busy, .readSuccess]) :=
    (soclibBd_admitted_iff [.busy, .readSuccess] hbuf).2.mpr (by decide)
  exact ⟨hread, hwrite⟩

end Ko6.Hal
