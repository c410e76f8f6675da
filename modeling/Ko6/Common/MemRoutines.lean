import Ko6.Lib.Endian

set_option autoImplicit false

/-!
# Common: `memset`, `memcpy` and `memmove`

The routines of `common/cstd.c` on a memory of bytes, with words of four bytes.  A
loop takes the count and the pointers and gives them back, so the three loops of a
routine share them as in the source.  A word is accessed at an aligned address
only: `none` is the fault at any other one.

Each loop is a `fill` or a `copy` of a part of the area, whatever the order of the
bytes in a word is.
-/

namespace Ko6.Common

open Ko6.Lib

/-! ## Model -/

/-- `clong`: the byte in each place of a word. -/
def fillWord (c : BitVec 8) : BitVec 32 :=
  let clong := c.setWidth 32
  let clong := clong ||| clong <<< 8
  clong ||| clong <<< 16

/-- The first loop of `memset`: up to an aligned address. -/
def memsetHead (c : BitVec 8) : Nat → BitVec 32 → Ram → Nat × BitVec 32 × Ram
  | 0, p, m => (0, p, m)
  | n + 1, p, m =>
    if p.toNat % 4 ≠ 0 then memsetHead c n (p + 1) (Function.update m p c)
    else (n + 1, p, m)

/-- The second loop of `memset`: word by word. -/
def memsetWords (e : Endian) (clong : BitVec 32) :
    Nat → BitVec 32 → Ram → Option (Nat × BitVec 32 × Ram)
  | n + 4, p, m => (m.storeWord e p clong).bind fun m => memsetWords e clong n (p + 4) m
  | n, p, m => some (n, p, m)

/-- The last loop of `memset`: the remaining bytes. -/
def memsetTail (c : BitVec 8) : Nat → BitVec 32 → Ram → Ram
  | 0, _, m => m
  | n + 1, p, m => memsetTail c n (p + 1) (Function.update m p c)

/-- `memset`. -/
def memset (e : Endian) (m : Ram) (s c n : BitVec 32) : Option (BitVec 32 × Ram) := do
  let byte := c.setWidth 8
  let (n, p, m) := memsetHead byte n.toNat s m
  let (n, p, m) ← memsetWords e (fillWord byte) n p m
  some (s, memsetTail byte n p m)

/-- The first loop of `memcpy`. -/
def memcpyHead : Nat → BitVec 32 → BitVec 32 → Ram → Nat × BitVec 32 × BitVec 32 × Ram
  | 0, d, s, m => (0, d, s, m)
  | n + 1, d, s, m =>
    if d.toNat % 4 ≠ 0 then memcpyHead n (d + 1) (s + 1) (Function.update m d (m s))
    else (n + 1, d, s, m)

/-- The second loop of `memcpy`. -/
def memcpyWords (e : Endian) :
    Nat → BitVec 32 → BitVec 32 → Ram → Option (Nat × BitVec 32 × BitVec 32 × Ram)
  | n + 4, d, s, m =>
    (m.loadWord e s).bind fun v =>
      (m.storeWord e d v).bind fun m => memcpyWords e n (d + 4) (s + 4) m
  | n, d, s, m => some (n, d, s, m)

/-- The last loop of `memcpy`, and the first one of `memmove`. -/
def memcpyTail : Nat → BitVec 32 → BitVec 32 → Ram → Ram
  | 0, _, _, m => m
  | n + 1, d, s, m => memcpyTail n (d + 1) (s + 1) (Function.update m d (m s))

/-- `memcpy`. -/
def memcpy (e : Endian) (m : Ram) (dest src n : BitVec 32) : Option (BitVec 32 × Ram) := do
  let (n, d, s, m) ←
    if dest.toNat % 4 = src.toNat % 4 then
      let (n, d, s, m) := memcpyHead n.toNat dest src m
      memcpyWords e n d s m
    else some (n.toNat, dest, src, m)
  some (dest, memcpyTail n d s m)

/-- The second loop of `memmove`, from the last byte down. -/
def memmoveBack : Nat → BitVec 32 → BitVec 32 → Ram → Ram
  | 0, _, _, m => m
  | n + 1, lastd, lasts, m => memmoveBack n (lastd - 1) (lasts - 1) (Function.update m lastd (m lasts))

/-- `memmove`. -/
def memmove (m : Ram) (dest src n : BitVec 32) : BitVec 32 × Ram :=
  if dest < src then (dest, memcpyTail n.toNat dest src m)
  else (dest, memmoveBack n.toNat (dest + (n - 1)) (src + (n - 1)) m)

/-! ## `memset` -/

theorem fillWord_eq (e : Endian) (c : BitVec 8) : fillWord c = Ram.ofBytes e c c c c := by
  have hc := c.isLt
  have hlow : (c.setWidth 32 ||| c.setWidth 32 <<< 8).toNat = c.toNat * 2 ^ 8 + c.toNat := by
    have hlt : c.toNat < 2 ^ 32 := by omega
    rw [BitVec.toNat_or, BitVec.toNat_shiftLeft, BitVec.toNat_setWidth, Nat.mod_eq_of_lt hlt,
      Nat.or_comm, Nat.shiftLeft_eq, Nat.mod_eq_of_lt (by omega), ← Nat.shiftLeft_eq,
      ← Nat.shiftLeft_add_eq_or_of_lt hc, Nat.shiftLeft_eq]
  have hword : fillWord c = c ++ c ++ c ++ c := by
    apply BitVec.eq_of_toNat_eq
    rw [fillWord, Ram.toNat_bytes, BitVec.toNat_or, BitVec.toNat_shiftLeft, hlow, Nat.or_comm,
      Nat.shiftLeft_eq, Nat.mod_eq_of_lt (by omega), ← Nat.shiftLeft_eq,
      ← Nat.shiftLeft_add_eq_or_of_lt (by omega), Nat.shiftLeft_eq]
    omega
  cases e with
  | little => exact hword
  | big => exact hword

/-- The first loop fills `k` bytes, and leaves an aligned address or no bytes. -/
theorem memsetHead_spec (c : BitVec 8) : ∀ (n : Nat) (p : BitVec 32) (m : Ram), n < 2 ^ 32 →
    ∃ k l, n = k + l ∧ (l ≠ 0 → (p + BitVec.ofNat 32 k).toNat % 4 = 0) ∧
      memsetHead c n p m = (l, p + BitVec.ofNat 32 k, m.fill p k c) := by
  intro n
  induction n with
  | zero =>
    intro p m _
    refine ⟨0, 0, rfl, by simp, ?_⟩
    rw [memsetHead, Ram.fill_zero, BitVec.add_zero]
  | succ n ih =>
    intro p m hn
    by_cases hp : p.toNat % 4 = 0
    · refine ⟨0, n + 1, by omega, fun _ => by simpa using hp, ?_⟩
      rw [memsetHead, if_neg (not_not.mpr hp), Ram.fill_zero, BitVec.add_zero]
    · obtain ⟨k, l, hkl, hal, hrun⟩ := ih (p + 1) (m.fill p 1 c) (by omega)
      have haddr : p + 1 + BitVec.ofNat 32 k = p + BitVec.ofNat 32 (1 + k) := by
        rw [BitVec.ofNat_add, BitVec.add_assoc]
        rfl
      refine ⟨1 + k, l, by omega, ?_, ?_⟩
      · rwa [haddr] at hal
      · have hfill := Ram.fill_fill (m := m) (s := p) (c := c) (show 1 + k ≤ 2 ^ 32 by omega)
        rw [memsetHead, if_pos hp, Ram.fill_one, hrun, haddr, ← hfill]
        rfl

theorem memsetWords_of_lt {e : Endian} {w : BitVec 32} {n : Nat} {p : BitVec 32} {m : Ram}
    (h : n < 4) : memsetWords e w n p m = some (n, p, m) := by
  match n, h with
  | 0, _ => rfl
  | 1, _ => rfl
  | 2, _ => rfl
  | 3, _ => rfl

/-- The second loop fills the words that are left. -/
theorem memsetWords_spec (e : Endian) (c : BitVec 8) (n : Nat) : ∀ (p : BitVec 32) (m : Ram),
    n < 2 ^ 32 → (n ≠ 0 → p.toNat % 4 = 0) →
    ∃ k l, n = k + l ∧
      memsetWords e (fillWord c) n p m = some (l, p + BitVec.ofNat 32 k, m.fill p k c) := by
  induction n using Nat.strong_induction_on with
  | _ n ih =>
    intro p m hn hp
    by_cases hlt : n < 4
    · refine ⟨0, n, by omega, ?_⟩
      rw [memsetWords_of_lt hlt, Ram.fill_zero, BitVec.add_zero]
    · obtain ⟨n, rfl⟩ : ∃ j, n = j + 4 := ⟨n - 4, by omega⟩
      have hal : p.toNat % 4 = 0 := hp (by omega)
      have hal' : (p + 4).toNat % 4 = 0 := by
        rw [BitVec.toNat_add]
        exact (by omega : (p.toNat + 4) % 2 ^ 32 % 4 = 0)
      obtain ⟨k, l, rfl, hrun⟩ := ih n (by omega) (p + 4) (m.fill p 4 c) (by omega) fun _ => hal'
      have haddr : p + 4 + BitVec.ofNat 32 k = p + BitVec.ofNat 32 (4 + k) := by
        rw [BitVec.ofNat_add, BitVec.add_assoc]
        rfl
      have hfill := Ram.fill_fill (m := m) (s := p) (c := c) (show 4 + k ≤ 2 ^ 32 by omega)
      refine ⟨4 + k, l, by omega, ?_⟩
      rw [memsetWords, fillWord_eq e, Ram.storeWord_fill e hal, Option.bind_some, ← fillWord_eq,
        hrun, haddr, ← hfill]
      rfl

/-- The last loop fills the rest. -/
theorem memsetTail_spec (c : BitVec 8) : ∀ (n : Nat) (p : BitVec 32) (m : Ram), n < 2 ^ 32 →
    memsetTail c n p m = m.fill p n c := by
  intro n
  induction n with
  | zero =>
    intro p m _
    rw [memsetTail, Ram.fill_zero]
  | succ n ih =>
    intro p m hn
    have hfill := Ram.fill_fill (m := m) (s := p) (c := c) (show 1 + n ≤ 2 ^ 32 by omega)
    rw [memsetTail, Ram.fill_one, ih (p + 1) _ (by omega), Nat.add_comm n 1, ← hfill]
    rfl

/-- `memset` fills the area, without a fault. -/
theorem memset_spec (e : Endian) (m : Ram) (s c n : BitVec 32) :
    memset e m s c n = some (s, m.fill s n.toNat (c.setWidth 8)) := by
  have hn := n.isLt
  obtain ⟨k, l, hkl, hal, hhead⟩ := memsetHead_spec (c.setWidth 8) n.toNat s m hn
  obtain ⟨k', l', hkl', hwords⟩ := memsetWords_spec e (c.setWidth 8) l (s + BitVec.ofNat 32 k)
    (m.fill s k (c.setWidth 8)) (by omega) hal
  have hmid := Ram.fill_fill (m := m) (s := s) (c := c.setWidth 8) (show k + k' ≤ 2 ^ 32 by omega)
  have hend := Ram.fill_fill (m := m) (s := s) (c := c.setWidth 8)
    (show k + k' + l' ≤ 2 ^ 32 by omega)
  have hsum : k + k' + l' = n.toNat := by omega
  simp only [memset, hhead, Option.bind_eq_bind, hwords, Option.bind_some]
  rw [memsetTail_spec _ _ _ _ (by omega), hmid, BitVec.add_assoc, ← BitVec.ofNat_add, hend, hsum]

/-! ## `memcpy` -/

/-- Bytes can be copied from the first one on: no source of a later byte is written
before it is read. -/
def Forward (d s : BitVec 32) (n : Nat) : Prop :=
  ∀ j, j < n → j ≤ (s + BitVec.ofNat 32 j - d).toNat

section
variable {d s : BitVec 32} {m : Ram} {n k l : Nat}

/-- The rest of an area is copied forward as well. -/
theorem Forward.drop (h : Forward d s (k + l)) :
    Forward (d + BitVec.ofNat 32 k) (s + BitVec.ofNat 32 k) l := by
  intro j hj
  have hdiff : s + BitVec.ofNat 32 k + BitVec.ofNat 32 j - (d + BitVec.ofNat 32 k)
      = s + BitVec.ofNat 32 j - d := by
    ring
  rw [hdiff]
  exact h j (by omega)

/-- Two parts that follow each other. -/
theorem Forward.copy_copy (h : Forward d s (k + l)) (hlen : k + l ≤ 2 ^ 32) :
    (m.copy d s k).copy (d + BitVec.ofNat 32 k) (s + BitVec.ofNat 32 k) l = m.copy d s (k + l) :=
  Ram.copy_copy hlen fun j hkj hj => Nat.le_trans hkj (h j hj)

theorem add_ofNat (a : BitVec 32) (i j : Nat) :
    a + BitVec.ofNat 32 i + BitVec.ofNat 32 j = a + BitVec.ofNat 32 (i + j) := by
  rw [BitVec.ofNat_add, BitVec.add_assoc]

/-- The first loop copies `k` bytes, and leaves an aligned address or no bytes. -/
theorem memcpyHead_spec : ∀ (n : Nat) (d s : BitVec 32) (m : Ram), n < 2 ^ 32 → Forward d s n →
    ∃ k l, n = k + l ∧ (l ≠ 0 → (d + BitVec.ofNat 32 k).toNat % 4 = 0) ∧
      memcpyHead n d s m = (l, d + BitVec.ofNat 32 k, s + BitVec.ofNat 32 k, m.copy d s k) := by
  intro n
  induction n with
  | zero =>
    intro d s m _ _
    refine ⟨0, 0, rfl, by simp, ?_⟩
    rw [memcpyHead, Ram.copy_zero, BitVec.add_zero, BitVec.add_zero]
  | succ n ih =>
    intro d s m hn hfwd
    by_cases hd : d.toNat % 4 = 0
    · refine ⟨0, n + 1, by omega, fun _ => by simpa using hd, ?_⟩
      rw [memcpyHead, if_neg (not_not.mpr hd), Ram.copy_zero, BitVec.add_zero, BitVec.add_zero]
    · rw [Nat.add_comm] at hfwd
      obtain ⟨k, l, rfl, hal, hrun⟩ := ih (d + 1) (s + 1) (m.copy d s 1) (by omega) hfwd.drop
      rw [← Nat.add_assoc] at hfwd
      have hcopy := Forward.copy_copy (m := m) (k := 1) (l := k)
        (fun j hj => hfwd j (by omega)) (by omega)
      refine ⟨1 + k, l, by omega, ?_, ?_⟩
      · rwa [← add_ofNat]
      · rw [memcpyHead, if_pos hd, Ram.copy_one, hrun, ← hcopy, ← add_ofNat, ← add_ofNat]
        rfl

theorem memcpyWords_of_lt {e : Endian} (h : n < 4) :
    memcpyWords e n d s m = some (n, d, s, m) := by
  match n, h with
  | 0, _ => rfl
  | 1, _ => rfl
  | 2, _ => rfl
  | 3, _ => rfl

/-- The next word is aligned when this one is. -/
theorem aligned_add_four {a : BitVec 32} (ha : a.toNat % 4 = 0) : (a + 4).toNat % 4 = 0 := by
  rw [BitVec.toNat_add]
  exact (by omega : (a.toNat + 4) % 2 ^ 32 % 4 = 0)

/-- The second loop copies the words that are left. -/
theorem memcpyWords_spec (e : Endian) (n : Nat) : ∀ (d s : BitVec 32) (m : Ram), n < 2 ^ 32 →
    Forward d s n → (n ≠ 0 → d.toNat % 4 = 0 ∧ s.toNat % 4 = 0) →
    ∃ k l, n = k + l ∧ memcpyWords e n d s m
      = some (l, d + BitVec.ofNat 32 k, s + BitVec.ofNat 32 k, m.copy d s k) := by
  induction n using Nat.strong_induction_on with
  | _ n ih =>
    intro d s m hn hfwd hal
    by_cases hlt : n < 4
    · refine ⟨0, n, by omega, ?_⟩
      rw [memcpyWords_of_lt hlt, Ram.copy_zero, BitVec.add_zero, BitVec.add_zero]
    · obtain ⟨n, rfl⟩ : ∃ j, n = j + 4 := ⟨n - 4, by omega⟩
      obtain ⟨hd, hs⟩ := hal (by omega)
      obtain ⟨v, hv⟩ := Ram.loadWord_isSome (m := m) (e := e) hs
      rw [Nat.add_comm] at hfwd
      obtain ⟨k, l, rfl, hrun⟩ := ih n (by omega) (d + 4) (s + 4) (m.copy d s 4) (by omega)
        hfwd.drop fun _ => ⟨aligned_add_four hd, aligned_add_four hs⟩
      rw [← Nat.add_assoc] at hfwd
      have hcopy := Forward.copy_copy (m := m) (k := 4) (l := k)
        (fun j hj => hfwd j (by omega)) (by omega)
      refine ⟨4 + k, l, by omega, ?_⟩
      rw [memcpyWords, hv, Option.bind_some, Ram.storeWord_copy hv hd, Option.bind_some, hrun,
        ← hcopy, ← add_ofNat, ← add_ofNat]
      rfl

/-- The last loop copies the rest. -/
theorem memcpyTail_spec : ∀ (n : Nat) (d s : BitVec 32) (m : Ram), n < 2 ^ 32 → Forward d s n →
    memcpyTail n d s m = m.copy d s n := by
  intro n
  induction n with
  | zero =>
    intro d s m _ _
    rw [memcpyTail, Ram.copy_zero]
  | succ n ih =>
    intro d s m hn hfwd
    rw [Nat.add_comm] at hfwd
    rw [memcpyTail, Ram.copy_one, ih (d + 1) (s + 1) _ (by omega) hfwd.drop, Nat.add_comm n 1,
      ← hfwd.copy_copy (by omega)]
    rfl

/-- `memcpy` copies the area, whatever the two alignments, without a fault. -/
theorem memcpy_spec (e : Endian) (m : Ram) (dest src n : BitVec 32)
    (hfwd : Forward dest src n.toNat) :
    memcpy e m dest src n = some (dest, m.copy dest src n.toNat) := by
  have hn := n.isLt
  unfold memcpy
  by_cases hal : dest.toNat % 4 = src.toNat % 4
  · obtain ⟨k, l, hkl, hdal, hhead⟩ := memcpyHead_spec n.toNat dest src m hn hfwd
    rw [hkl] at hfwd
    have hsal : l ≠ 0 → (src + BitVec.ofNat 32 k).toNat % 4 = 0 := by
      intro hl
      have hd := hdal hl
      rw [BitVec.toNat_add, BitVec.toNat_ofNat] at hd ⊢
      omega
    obtain ⟨k', l', rfl, hwords⟩ := memcpyWords_spec e l (dest + BitVec.ofNat 32 k)
      (src + BitVec.ofNat 32 k) (m.copy dest src k) (by omega) hfwd.drop
      fun hl => ⟨hdal hl, hsal hl⟩
    rw [← Nat.add_assoc] at hfwd
    have hmid := Forward.copy_copy (m := m) (k := k) (l := k')
      (fun j hj => hfwd j (by omega)) (by omega)
    rw [if_pos hal]
    simp only [hhead, hwords, Option.bind_eq_bind, Option.bind_some]
    rw [hmid, add_ofNat, add_ofNat, memcpyTail_spec l' _ _ _ (by omega) hfwd.drop,
      hfwd.copy_copy (by omega), hkl, Nat.add_assoc]
  · rw [if_neg hal]
    simp only [Option.bind_eq_bind, Option.bind_some]
    rw [memcpyTail_spec n.toNat _ _ _ hn hfwd]

/-! ## `memmove` -/

/-- Bytes can be copied from the last one on. -/
def Backward (d s : BitVec 32) (n : Nat) : Prop :=
  ∀ j k, j < k → k < n → s + BitVec.ofNat 32 j ≠ d + BitVec.ofNat 32 k

/-- The loop from the last byte down. -/
theorem memmoveBack_spec : ∀ (n : Nat) (m : Ram), n < 2 ^ 32 → Backward d s n →
    memmoveBack n (d + BitVec.ofNat 32 n - 1) (s + BitVec.ofNat 32 n - 1) m = m.copy d s n := by
  intro n
  induction n with
  | zero =>
    intro m _ _
    rw [memmoveBack, Ram.copy_zero]
  | succ n ih =>
    intro m hn hback
    have hlast : ∀ a : BitVec 32, a + BitVec.ofNat 32 (n + 1) - 1 = a + BitVec.ofNat 32 n := by
      intro a
      rw [BitVec.ofNat_add]
      exact (by ring : a + (BitVec.ofNat 32 n + 1) - 1 = a + BitVec.ofNat 32 n)
    rw [hlast, hlast, memmoveBack, Ram.copy_one,
      ih _ (by omega) fun j k hjk hk => hback j k hjk (by omega),
      Ram.copy_copy_back (by omega)]
    intro j hj
    by_contra hzero
    exact hback j n hj (by omega) (Ram.offset_eq_zero_iff.mp (by omega))

/-- Two areas that do not wrap can be copied forward when the destination is in front, -/
theorem forward_of_lt (hs : s.toNat + n ≤ 2 ^ 32) (h : d < s) : Forward d s n := by
  intro j hj
  have hend : s.toNat + j < 2 ^ 32 := Nat.lt_of_lt_of_le (Nat.add_lt_add_left hj _) hs
  rw [BitVec.lt_def] at h
  rw [BitVec.toNat_sub, BitVec.toNat_add, BitVec.toNat_ofNat]
  omega

/-- and backward when it is not. -/
theorem backward_of_le (hd : d.toNat + n ≤ 2 ^ 32) (h : ¬ d < s) :
    Backward d s n := by
  intro j k hjk hk heq
  have hnat := congrArg BitVec.toNat heq
  rw [BitVec.lt_def] at h
  rw [BitVec.toNat_add, BitVec.toNat_add, BitVec.toNat_ofNat, BitVec.toNat_ofNat] at hnat
  omega

/-- `memmove` copies the area, whatever the overlap. -/
theorem memmove_spec (m : Ram) (dest src n : BitVec 32) (hs : src.toNat + n.toNat ≤ 2 ^ 32)
    (hd : dest.toNat + n.toNat ≤ 2 ^ 32) :
    memmove m dest src n = (dest, m.copy dest src n.toNat) := by
  have hlast : ∀ a : BitVec 32, a + (n - 1) = a + BitVec.ofNat 32 n.toNat - 1 := by
    intro a
    rw [BitVec.ofNat_toNat, BitVec.setWidth_eq]
    ring
  unfold memmove
  by_cases hlt : dest < src
  · rw [if_pos hlt, memcpyTail_spec _ _ _ _ n.isLt (forward_of_lt hs hlt)]
  · rw [if_neg hlt, hlast, hlast, memmoveBack_spec _ _ n.isLt (backward_of_le hd hlt)]

end

/-! ## Areas that do not wrap -/

/-- The area of `n` bytes from `s` on does not wrap around the address space. -/
def InSpace (s n : BitVec 32) : Prop := s.toNat + n.toNat ≤ 2 ^ 32

/-- `a` is an address of the area. -/
def InArea (s n a : BitVec 32) : Prop := s.toNat ≤ a.toNat ∧ a.toNat < s.toNat + n.toNat

section
variable {m : Ram} {s d n a i : BitVec 32} {c : BitVec 8}

theorem InSpace.fill_eq (h : InSpace s n) :
    (InArea s n a → m.fill s n.toNat c a = c) ∧ (¬ InArea s n a → m.fill s n.toNat c a = m a) := by
  refine ⟨fun hin => ?_, fun hout => ?_⟩
  · exact if_pos ((Ram.offset_lt_iff h).mpr hin)
  · exact if_neg (mt (Ram.offset_lt_iff h).mp hout)

theorem InSpace.copy_eq (h : InSpace d n) :
    (∀ i, i < n → m.copy d s n.toNat (d + i) = m (s + i)) ∧
    (∀ a, ¬ InArea d n a → m.copy d s n.toNat a = m a) := by
  refine ⟨fun i hi => ?_, fun a hout => ?_⟩
  · have hoff : d + i - d = i := by ring
    rw [BitVec.lt_def] at hi
    rw [Ram.copy_of_lt (by rwa [hoff]), hoff]
  · exact if_neg (mt (Ram.offset_lt_iff h).mp hout)

/-- Disjoint areas can be copied forward. -/
theorem InSpace.forward (hd : InSpace d n) (hs : InSpace s n)
    (hdisj : ∀ a, ¬ (InArea d n a ∧ InArea s n a)) : Forward d s n.toNat := by
  intro j hj
  by_contra hlt
  have hs' : s.toNat + j < 2 ^ 32 := Nat.lt_of_lt_of_le (Nat.add_lt_add_left hj _) hs
  refine hdisj (s + BitVec.ofNat 32 j) ⟨(Ram.offset_lt_iff hd).mp (by omega), ?_⟩
  unfold InArea
  rw [BitVec.toNat_add, BitVec.toNat_ofNat]
  omega

end

/-- The routines that go by words do what a routine that goes by bytes does, in memories
of either byte order: they fault nowhere, `memset` sets the area to the byte, `memcpy`
between disjoint areas and `memmove` between any leave there the bytes of the source, and no
other byte changes. -/
theorem memory_routines_bytewise (e : Endian) (m : Ram) :
    (∀ s c n, InSpace s n → ∃ m', memset e m s c n = some (s, m') ∧
      ∀ a, (InArea s n a → m' a = c.setWidth 8) ∧ (¬ InArea s n a → m' a = m a)) ∧
    (∀ d s n, InSpace d n → InSpace s n → (∀ a, ¬ (InArea d n a ∧ InArea s n a)) →
      ∃ m', memcpy e m d s n = some (d, m') ∧
        (∀ i, i < n → m' (d + i) = m (s + i)) ∧ ∀ a, ¬ InArea d n a → m' a = m a) ∧
    (∀ d s n, InSpace d n → InSpace s n →
      ∃ m', memmove m d s n = (d, m') ∧
        (∀ i, i < n → m' (d + i) = m (s + i)) ∧ ∀ a, ¬ InArea d n a → m' a = m a) := by
  refine ⟨?_, ?_, ?_⟩
  · intro s c n hs
    exact ⟨_, memset_spec e m s c n, fun a => hs.fill_eq⟩
  · intro d s n hd hs hdisj
    exact ⟨_, memcpy_spec e m d s n (hd.forward hs hdisj), hd.copy_eq⟩
  · intro d s n hd hs
    exact ⟨_, memmove_spec m d s n hs hd, hd.copy_eq⟩

/-- Nine bytes from an odd address on, next to and across each other. -/
theorem memory_routines_bytewise_nine :
    (∃ m', memset .big (fun a => a.setWidth 8) 5 0x1AB 9 = some (5, m') ∧
      ∀ a, (InArea 5 9 a → m' a = 0xAB) ∧ (¬ InArea 5 9 a → m' a = a.setWidth 8)) ∧
    (∃ m', memcpy .little (fun a => a.setWidth 8) 5 33 9 = some (5, m') ∧
      (∀ i, i < 9 → m' (5 + i) = (33 + i : BitVec 32).setWidth 8) ∧
      ∀ a, ¬ InArea 5 9 a → m' a = a.setWidth 8) ∧
    (∃ m', memmove (fun a => a.setWidth 8) 5 3 9 = (5, m') ∧
      (∀ i, i < 9 → m' (5 + i) = (3 + i : BitVec 32).setWidth 8) ∧
      ∀ a, ¬ InArea 5 9 a → m' a = a.setWidth 8) := by
  refine ⟨?_, ?_, ?_⟩
  · exact (memory_routines_bytewise .big _).1 5 0x1AB 9 (by unfold InSpace; decide)
  · refine (memory_routines_bytewise .little _).2.1 5 33 9 (by unfold InSpace; decide)
      (by unfold InSpace; decide) ?_
    rintro a ⟨⟨-, hhi⟩, hlo, -⟩
    exact absurd (Nat.lt_of_le_of_lt hlo hhi) (by decide)
  · exact (memory_routines_bytewise .little _).2.2 5 3 9 (by unfold InSpace; decide)
      (by unfold InSpace; decide)

end Ko6.Common
