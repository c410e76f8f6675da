import Mathlib

set_option autoImplicit false

/-!
# Lib: strides modulo a number

The positions `a + t * b`, for `t` below `p`, modulo `p` are all the residues when `b`
is coprime to `p`.  When the sum is first reduced modulo a larger `W`, as a machine
word is, they are so exactly as long as nothing is cut off; the sum passes `W` at most
once here.
-/

namespace Ko6.Lib.Stride

variable {W p a b : Nat}

/-- A stride without reduction does not meet itself. -/
theorem injective (hb : Nat.Coprime b p) {t u : Nat} (ht : t < p) (hu : u < p)
    (h : (a + t * b) % p = (a + u * b) % p) : t = u := by
  have hmod : a + t * b ≡ a + u * b [MOD p] := h
  have hmul : t * b ≡ u * b [MOD p] := Nat.ModEq.add_left_cancel' a hmod
  have htu : t ≡ u [MOD p] := Nat.ModEq.cancel_right_of_coprime hb.symm hmul
  rwa [Nat.ModEq, Nat.mod_eq_of_lt ht, Nat.mod_eq_of_lt hu] at htu

/-- A list of `p` residues without repetition is a permutation of all of them. -/
theorem perm_range {f : Nat → Nat} (hlt : ∀ t, t < p → f t < p)
    (hinj : ∀ t u, t < p → u < p → f t = f u → t = u) :
    ((List.range p).map f).Perm (List.range p) := by
  have hnd : ((List.range p).map f).Nodup :=
    List.nodup_range.map_on fun t ht u hu h =>
      hinj t u (List.mem_range.mp ht) (List.mem_range.mp hu) h
  refine (hnd.subperm fun x hx => ?_).perm_of_length_le (by rw [List.length_map])
  obtain ⟨t, ht, rfl⟩ := List.mem_map.mp hx
  exact List.mem_range.mpr (hlt t (List.mem_range.mp ht))

/-- A stride that does not pass `W` is at every residue once. -/
theorem perm_of_lt (hb : Nat.Coprime b p) (hp : 0 < p) (hlast : a + (p - 1) * b < W) :
    ((List.range p).map fun t => (a + t * b) % W % p).Perm (List.range p) := by
  have hlt : ∀ t, t < p → a + t * b < W := by
    intro t ht
    have : t * b ≤ (p - 1) * b := Nat.mul_le_mul_right b (by omega)
    omega
  refine perm_range (fun t _ => Nat.mod_lt _ hp) fun t u ht hu h => ?_
  rw [Nat.mod_eq_of_lt (hlt t ht), Nat.mod_eq_of_lt (hlt u hu)] at h
  exact injective hb ht hu h

/-- A stride that passes `W` comes back to a position that it has been at. -/
theorem meets (hW : Nat.Coprime W p) (hb : Nat.Coprime b p) (hp : 1 < p) (ha : a < W)
    (honce : a + (p - 1) * b < 2 * W) (hpass : W ≤ a + (p - 1) * b) :
    ∃ t u, t < u ∧ u < p ∧ (a + t * b) % W % p = (a + u * b) % W % p := by
  -- the first position that is reduced
  have hex : ∃ t, W ≤ a + t * b := ⟨p - 1, hpass⟩
  obtain ⟨t₀, ht₀, hmin⟩ : ∃ t₀, W ≤ a + t₀ * b ∧ ∀ t, t < t₀ → a + t * b < W :=
    ⟨Nat.find hex, Nat.find_spec hex, fun t ht => not_le.mp (Nat.find_min hex ht)⟩
  have hpos : 0 < t₀ := by
    rcases Nat.eq_zero_or_pos t₀ with rfl | h
    · rw [Nat.zero_mul] at ht₀
      omega
    · exact h
  have ht₀p : t₀ ≤ p - 1 := by
    by_contra h
    have := hmin (p - 1) (by omega)
    omega
  -- `d` steps make up for `W`
  obtain ⟨d, hd, hbd⟩ := Nat.exists_mul_mod_eq_of_coprime W hb (by omega)
  have hd0 : d ≠ 0 := by
    rintro rfl
    rw [Nat.mul_zero, Nat.zero_mod] at hbd
    have hdvd : p ∣ W := Nat.dvd_of_mod_eq_zero hbd.symm
    have := hW.symm.eq_one_of_dvd hdvd
    omega
  -- the first position from `d` on that is reduced, and the one `d` steps before it
  obtain ⟨t, htu, hlt⟩ : ∃ t, t₀ ≤ t + d ∧ t < t₀ ∧ t + d < p := by
    rcases Nat.le_total t₀ d with h | h
    · exact ⟨0, by omega, by omega, by omega⟩
    · exact ⟨t₀ - d, by omega, by omega, by omega⟩
  refine ⟨t, t + d, by omega, hlt.2, ?_⟩
  have hsum : a + (t + d) * b = a + t * b + b * d := by ring
  have hge : W ≤ a + (t + d) * b :=
    ht₀.trans (Nat.add_le_add_left (Nat.mul_le_mul_right b htu) a)
  have hlt2 : a + (t + d) * b < 2 * W := by
    have : (t + d) * b ≤ (p - 1) * b := Nat.mul_le_mul_right b (by omega)
    omega
  have hwrap : (a + (t + d) * b) % W = a + (t + d) * b - W := by
    rw [Nat.mod_eq_sub_mod hge, Nat.mod_eq_of_lt (by omega)]
  rw [Nat.mod_eq_of_lt (hmin t hlt.1), hwrap]
  have hback : a + t * b + W ≡ (a + (t + d) * b - W) + W [MOD p] := by
    rw [Nat.sub_add_cancel hge, hsum]
    exact Nat.ModEq.add_left _ (show W ≡ b * d [MOD p] from hbd.symm)
  exact Nat.ModEq.add_right_cancel' W hback

/-- The reduced positions are all the residues, as long as the stride passes `W` at most
once, exactly when it does not pass it. -/
theorem perm_iff (hW : Nat.Coprime W p) (hb : Nat.Coprime b p) (hp : 1 < p) (ha : a < W)
    (honce : a + (p - 1) * b < 2 * W) :
    ((List.range p).map fun t => (a + t * b) % W % p).Perm (List.range p) ↔
      a + (p - 1) * b < W := by
  constructor
  · intro hperm
    by_contra hpass
    obtain ⟨t, u, htu, hu, h⟩ := meets hW hb hp ha honce (not_lt.mp hpass)
    have hnd := (hperm.nodup_iff).mpr List.nodup_range
    have := List.inj_on_of_nodup_map hnd (List.mem_range.mpr (htu.trans hu))
      (List.mem_range.mpr hu) h
    omega
  · exact perm_of_lt hb (by omega)

end Ko6.Lib.Stride
