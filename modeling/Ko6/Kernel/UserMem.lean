import Ko6.Kernel.DevUsers

set_option autoImplicit false

/-!
# Kernel: requests for user memory

`dma_memcpy_user` and `dcache_buf_inval_user` of `kernel/ksyscalls.c` take addresses and
lengths from a user program.  User memory is below `0x80000000`, and each function checks
its arguments with sums of 32 bits.

`dma_memcpy_user` copies with the DMA or, when there is none, with `memcpy`.  Its length is
in bytes, as are those of `soclib_dma_memcpy` and of `memcpy`, but for `memcpy` it is
multiplied by four.  `dcache_buf_inval_user` does not look at the length alone, and the sum
of a large one with the address wraps.
-/

namespace Ko6.Kernel

open DevUsers

/-! ## Functions -/

/-- A copy of `n` bytes. -/
structure CopyReq where
  dest : BitVec 32
  src : BitVec 32
  n : BitVec 32
  deriving DecidableEq

/-- `soclib_dma_memcpy`: the pointer that it returns, and the transfer that the registers
`dest`, `src` and `len` start. -/
def soclibDmaMemcpy (dst src n : BitVec 32) : BitVec 32 × CopyReq :=
  (dst, { dest := dst, src := src, n := n })

/-- `dma_memcpy_user` with the pointer that `dmadev_get (0)` gives. -/
def dmaMemcpyUserAt (dma : Nat) (dest src n : BitVec 32) : DevCall :=
  if DmaRefuses dest src n then ⟨.fail, []⟩ else dmaMemcpyWith dma dest src n

/-- What is returned and what is copied; the pointers for which `soclib` is true are those
of the DMA devices, all of one driver.  A call through another pointer is `none`. -/
def userCopy (soclib : Nat → Bool) (call : DevCall) : Option (BitVec 32 × Option CopyReq) :=
  match call.result with
  | .fail => some (0, none)
  | .memcpy dest src n => some (dest, some { dest := dest, src := src, n := n })
  | .driver .dmaMemcpy dma [dest, src, n] =>
    if soclib dma then
      let (res, req) := soclibDmaMemcpy dest src n
      some (res, some req)
    else none
  | .driver _ _ _ => none

/-- `EPERM` and `SUCCESS`. -/
inductive InvalResult where
  | eperm | success
  deriving DecidableEq

/-- `dcache_buf_inval_user`. -/
def dcacheBufInvalUser (buf size : BitVec 32) : InvalResult :=
  if buf ≥ 0x80000000 then .eperm
  else if buf + size ≥ 0x80000000 then .eperm
  else .success

/-! ## What a request should do -/

/-- The bytes from `a` on are below `0x80000000`. -/
def UserBytes (a : BitVec 32) (n : Nat) : Prop :=
  ∀ i, i < n → (a + BitVec.ofNat 32 i).toNat < 0x80000000

/-- When `dma_memcpy_user` does not return `NULL`, the `n` bytes are copied and all bytes
that are read or written are the user's. -/
def CopyConfined (soclib : Nat → Bool) (dma : Nat) (dest src n : BitVec 32) : Prop :=
  ∃ res copied, userCopy soclib (dmaMemcpyUserAt dma dest src n) = some (res, copied) ∧
    (res ≠ 0 → ∃ req, copied = some req ∧ req = { dest := dest, src := src, n := n } ∧
      UserBytes req.src req.n.toNat ∧ UserBytes req.dest req.n.toNat)

/-- When `dcache_buf_inval_user` succeeds, the whole range is the user's. -/
def InvalConfined (buf size : BitVec 32) : Prop :=
  dcacheBufInvalUser buf size = .success →
    ∀ i, i < size.toNat → buf.toNat + i < 0x80000000

section
variable {fuel : Nat} {s : Kdev} {soclib : Nat → Bool} {dma : Nat} {dest src n buf size : BitVec 32}

/-- The system call with the device that is looked up. -/
theorem dmaMemcpyUser_eq (hget : dmadevGet fuel s 0 = some dma) (dest src n : BitVec 32) :
    dmaMemcpyUser fuel s dest src n = some (dmaMemcpyUserAt dma dest src n) := by
  rw [dmaMemcpyUser, dmaMemcpyUserAt]
  by_cases hrefuses : DmaRefuses dest src n
  · rw [if_pos hrefuses, if_pos hrefuses]
  · rw [if_neg hrefuses, if_neg hrefuses, hget, Option.map_some]

/-- The checks of `dma_memcpy_user` bound the sums in unbounded integers. -/
theorem sums_of_not_refuses (h : ¬ DmaRefuses dest src n) :
    src.toNat + n.toNat < 0x80000000 ∧ dest.toNat + n.toNat < 0x80000000 := by
  simp only [DmaRefuses, not_or, ge_iff_le, BitVec.not_le, BitVec.lt_def, BitVec.toNat_add,
    BitVec.ofNat_eq_ofNat, BitVec.toNat_ofNat] at h
  omega

theorem userBytes_of_sum {a : BitVec 32} {k : Nat} (h : a.toNat + k < 0x80000000) :
    UserBytes a k := by
  intro i hi
  rw [BitVec.toNat_add, BitVec.toNat_ofNat]
  omega

/-- Four times a length is the length only for zero. -/
theorem mul_four_eq_iff : n * 4 = n ↔ n = 0 := by
  have hlt := n.isLt
  have hmul : (n * 4).toNat = n.toNat * 4 % 2 ^ 32 := BitVec.toNat_mul n 4
  constructor
  · intro heq
    rw [heq] at hmul
    have hdiv := Nat.div_add_mod (n.toNat * 4) (2 ^ 32)
    rw [← hmul] at hdiv
    have hq : n.toNat * 4 / 2 ^ 32 < 4 :=
      Nat.div_lt_of_lt_mul (Nat.mul_lt_mul_of_pos_right hlt (by decide))
    -- three times the length is a multiple of 2³², by 0, 1, 2 or 3
    generalize n.toNat * 4 / 2 ^ 32 = q at hdiv hq
    clear hmul
    have hzero : n.toNat = 0 := by
      interval_cases q
      · omega
      · omega
      · omega
      · omega
    exact BitVec.eq_of_toNat_eq hzero
  · rintro rfl
    rfl

/-- A copy of the length given is confined once the checks are passed. -/
theorem copy_of_not_refuses (h : ¬ DmaRefuses dest src n) : UserBytes src n.toNat ∧
    UserBytes dest n.toNat :=
  ⟨userBytes_of_sum (sums_of_not_refuses h).1, userBytes_of_sum (sums_of_not_refuses h).2⟩

/-- `dma_memcpy_user` on both paths. -/
theorem copyConfined_iff : CopyConfined soclib dma dest src n ↔ DmaRefuses dest src n ∨
    (dma ≠ 0 ∧ soclib dma = true) ∨ (dma = 0 ∧ (dest = 0 ∨ n = 0)) := by
  unfold CopyConfined dmaMemcpyUserAt
  by_cases hrefuses : DmaRefuses dest src n
  · rw [if_pos hrefuses]
    exact iff_of_true ⟨0, none, rfl, fun hne => absurd rfl hne⟩ (.inl hrefuses)
  · rw [if_neg hrefuses]
    have hbytes := copy_of_not_refuses hrefuses
    by_cases hdma : dma = 0
    · have hcall : userCopy soclib (dmaMemcpyWith dma dest src n) =
          some (dest, some { dest := dest, src := src, n := n * 4 }) := by
        rw [dmaMemcpyWith, if_pos hdma]
        rfl
      rw [hcall]
      constructor
      · rintro ⟨res, copied, heq, hcopy⟩
        obtain ⟨rfl, rfl⟩ := Prod.mk.inj (Option.some.inj heq)
        by_cases hdest : dest = 0
        · exact .inr (.inr ⟨hdma, .inl hdest⟩)
        · obtain ⟨req, hreq, hexact, -⟩ := hcopy hdest
          have hlen : n * 4 = n := congrArg CopyReq.n ((Option.some.inj hreq).trans hexact)
          exact .inr (.inr ⟨hdma, .inr (mul_four_eq_iff.mp hlen)⟩)
      · rintro (h | ⟨hne, -⟩ | ⟨-, hdest | hn⟩)
        · exact absurd h hrefuses
        · exact absurd hdma hne
        · exact ⟨_, _, rfl, fun hne => absurd hdest hne⟩
        · rw [mul_four_eq_iff.mpr hn]
          exact ⟨_, _, rfl, fun _ => ⟨_, rfl, rfl, hbytes.1, hbytes.2⟩⟩
    · rw [dmaMemcpyWith, if_neg hdma]
      cases hsoclib : soclib dma with
      | true =>
        have hcall : userCopy soclib ⟨.driver .dmaMemcpy dma [dest, src, n], [dma]⟩ =
            some (dest, some { dest := dest, src := src, n := n }) := if_pos hsoclib
        rw [hcall]
        exact iff_of_true ⟨_, _, rfl, fun _ => ⟨_, rfl, rfl, hbytes.1, hbytes.2⟩⟩
          (.inr (.inl ⟨hdma, rfl⟩))
      | false =>
        have hcall : userCopy soclib ⟨.driver .dmaMemcpy dma [dest, src, n], [dma]⟩ = none :=
          if_neg (by rw [hsoclib]; decide)
        rw [hcall]
        refine iff_of_false ?_ ?_
        · rintro ⟨res, copied, heq, -⟩
          cases heq
        · rintro (h | ⟨-, h⟩ | ⟨h, -⟩)
          · exact hrefuses h
          · exact absurd h (by decide)
          · exact hdma h

/-- `dcache_buf_inval_user`. -/
theorem invalConfined_iff : InvalConfined buf size ↔
    0x80000000 ≤ buf ∨ buf.toNat + size.toNat < 2 ^ 32 := by
  have hsize := size.isLt
  unfold InvalConfined dcacheBufInvalUser
  by_cases hbuf : buf ≥ 0x80000000
  · rw [if_pos hbuf]
    exact iff_of_true (fun h => nomatch h) (.inl hbuf)
  · rw [if_neg hbuf]
    have hlow : buf.toNat < 0x80000000 := by
      simpa [BitVec.le_def] using hbuf
    have hsum : (buf + size ≥ 0x80000000) ↔ 0x80000000 ≤ (buf.toNat + size.toNat) % 2 ^ 32 := by
      rw [ge_iff_le, BitVec.le_def, BitVec.toNat_add]
      rfl
    constructor
    · intro h
      by_contra hnot
      rw [not_or, Nat.not_lt] at hnot
      -- the sum has wrapped to a small one
      have hwrap : ¬ buf + size ≥ 0x80000000 := by
        rw [hsum]
        omega
      rw [if_neg hwrap] at h
      have := h rfl (0x80000000 - buf.toNat) (by omega)
      omega
    · rintro (hbuf' | hlt)
      · exact absurd hbuf' hbuf
      · intro h i hi
        by_cases hhigh : buf + size ≥ 0x80000000
        · rw [if_pos hhigh] at h
          exact nomatch h
        · rw [hsum] at hhigh
          omega

end

/-- `dma_memcpy_user` copies what it should, in user memory, exactly with the driver, or
when it refuses its arguments; with `memcpy` it does for no bytes and for `NULL` only.
`dcache_buf_inval_user` lets a range pass that is not the user's exactly when its end is
beyond 32 bits. -/
theorem user_requests_confined_iff (soclib : Nat → Bool) (dma : Nat)
    (dest src n buf size : BitVec 32) :
    (CopyConfined soclib dma dest src n ↔ DmaRefuses dest src n ∨
      (dma ≠ 0 ∧ soclib dma = true) ∨ (dma = 0 ∧ (dest = 0 ∨ n = 0))) ∧
    (InvalConfined buf size ↔ 0x80000000 ≤ buf ∨ buf.toNat + size.toNat < 2 ^ 32) :=
  ⟨copyConfined_iff, invalConfined_iff⟩

/-- A range from the user's memory round to its beginning is accepted, and without a DMA 64
bytes are copied for 16. -/
theorem user_requests_not_confined :
    dcacheBufInvalUser 0x1000 0xFFFFF800 = .success ∧ ¬ InvalConfined 0x1000 0xFFFFF800 ∧
    userCopy (fun _ => false) (dmaMemcpyUserAt 0 0x2000 0x1000 16) =
      some (0x2000, some { dest := 0x2000, src := 0x1000, n := 64 }) ∧
    ¬ CopyConfined (fun _ => false) 0 0x2000 0x1000 16 := by
  refine ⟨by decide, ?_, by decide, ?_⟩
  · rw [invalConfined_iff]
    decide
  · rw [copyConfined_iff]
    decide

end Ko6.Kernel
