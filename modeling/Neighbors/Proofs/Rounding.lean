import Neighbors.Rounding

/-!
# Rounding keeps the order

Words are ordered as their units (`units_mono`), a greater quotient is rounded to a greater word
(`nearest_mono`), and what is a word already is rounded to itself (`nearest_units`), as is every
multiple of the step around it (`units_nearest`).
-/

namespace Neighbors

-- Powers are those of the core library, whatever else is imported.
attribute [local instance (high)] instPowNat

theorem div_le_divHalfEven (n d : Nat) : n / d ≤ divHalfEven n d := by
  simp only [divHalfEven]
  split
  · exact Nat.le_refl _
  · exact Nat.le_succ _

theorem divHalfEven_le (n d : Nat) : divHalfEven n d ≤ n / d + 1 := by
  simp only [divHalfEven]
  split
  · exact Nat.le_succ _
  · exact Nat.le_refl _

theorem divHalfEven_mono {n n' : Nat} (d : Nat) (h : n ≤ n') :
    divHalfEven n d ≤ divHalfEven n' d := by
  rcases Nat.lt_or_ge (n / d) (n' / d) with hlt | hge
  · calc divHalfEven n d ≤ n / d + 1 := divHalfEven_le n d
      _ ≤ n' / d := hlt
      _ ≤ divHalfEven n' d := div_le_divHalfEven n' d
  · have hq : n / d = n' / d := Nat.le_antisymm (Nat.div_le_div_right h) hge
    have hr : n % d ≤ n' % d := by
      have h1 := Nat.div_add_mod n d
      have h2 := Nat.div_add_mod n' d
      rw [hq] at h1
      omega
    simp only [divHalfEven, hq]
    split
    · split
      · exact Nat.le_refl _
      · exact Nat.le_succ _
    · split
      · omega
      · exact Nat.le_refl _

namespace Format

variable (f : Format)

theorem log2_mono {n n' : Nat} (h : n ≤ n') : n.log2 ≤ n'.log2 := by
  by_cases h0 : n = 0
  · rw [h0, Nat.log2_zero]; exact Nat.zero_le _
  · exact (Nat.le_log2 (by omega)).2 (Nat.le_trans (Nat.log2_self_le h0) h)

/-- The step between neighbouring words around `q` units, as a power of two. -/
def shiftOf (q : Nat) : Nat := q.log2 - f.fractionBits

/-- A rounded significand is at most one binade high. -/
theorem divHalfEven_shift_le (num den : Nat) :
    divHalfEven num (den * 2 ^ f.shiftOf (num / den)) ≤ 2 ^ f.fractionBits * 2 := by
  refine Nat.le_trans (divHalfEven_le _ _) ?_
  rw [← Nat.div_div_eq_div_mul, Nat.succ_le_iff, Nat.div_lt_iff_lt_mul (Nat.two_pow_pos _),
    ← Nat.pow_succ, ← Nat.pow_add]
  exact Nat.lt_of_lt_of_le Nat.lt_log2_self
    (Nat.pow_le_pow_right (by decide) (by unfold shiftOf; omega))

/-- Above the subnormal words a rounded significand has its leading bit. -/
theorem le_divHalfEven_shift (num den : Nat) (h : 0 < f.shiftOf (num / den)) :
    2 ^ f.fractionBits ≤ divHalfEven num (den * 2 ^ f.shiftOf (num / den)) := by
  have hq : num / den ≠ 0 := by
    intro hq
    rw [hq, shiftOf, Nat.log2_zero] at h
    omega
  refine Nat.le_trans ?_ (div_le_divHalfEven _ _)
  rw [← Nat.div_div_eq_div_mul, Nat.le_div_iff_mul_le (Nat.two_pow_pos _), ← Nat.pow_add]
  refine Nat.le_trans (Nat.pow_le_pow_right (by decide) ?_) (Nat.log2_self_le hq)
  unfold shiftOf at h ⊢
  omega

theorem nearest_mono {num num' : Nat} (den : Nat) (h : num ≤ num') :
    f.nearest num den ≤ f.nearest num' den := by
  have hshift : f.shiftOf (num / den) ≤ f.shiftOf (num' / den) :=
    Nat.sub_le_sub_right (log2_mono (Nat.div_le_div_right h)) _
  show min f.infinity (f.shiftOf (num / den) * 2 ^ f.fractionBits +
      divHalfEven num (den * 2 ^ f.shiftOf (num / den))) ≤
    min f.infinity (f.shiftOf (num' / den) * 2 ^ f.fractionBits +
      divHalfEven num' (den * 2 ^ f.shiftOf (num' / den)))
  suffices hle : f.shiftOf (num / den) * 2 ^ f.fractionBits +
      divHalfEven num (den * 2 ^ f.shiftOf (num / den)) ≤
    f.shiftOf (num' / den) * 2 ^ f.fractionBits +
      divHalfEven num' (den * 2 ^ f.shiftOf (num' / den)) by omega
  rcases Nat.eq_or_lt_of_le hshift with heq | hlt
  · rw [heq]
    exact Nat.add_le_add_left (divHalfEven_mono _ h) _
  · -- The binade of the smaller one ends where that of the greater one begins, or before.
    have hlow := f.divHalfEven_shift_le num den
    have hhigh := f.le_divHalfEven_shift num' den (by omega)
    have hstep := Nat.mul_le_mul_right (2 ^ f.fractionBits) hlt
    rw [Nat.succ_mul] at hstep
    omega

theorem significand_of_lt {m : Nat} (h : m < 2 ^ f.fractionBits) : f.significand m = m := if_pos h

theorem significand_of_le {m : Nat} (h : 2 ^ f.fractionBits ≤ m) :
    f.significand m = 2 ^ f.fractionBits + m % 2 ^ f.fractionBits := if_neg (Nat.not_lt.2 h)

theorem scale_of_lt {m : Nat} (h : m < 2 ^ f.fractionBits) : f.scale m = 0 := by
  rw [scale, Nat.div_eq_of_lt h]

theorem scale_succ {m : Nat} (h : 2 ^ f.fractionBits ≤ m) :
    f.scale m + 1 = m / 2 ^ f.fractionBits :=
  Nat.sub_add_cancel (Nat.div_pos h (Nat.two_pow_pos _))

theorem significand_lt (m : Nat) : f.significand m < 2 ^ f.fractionBits * 2 := by
  have hmod := Nat.mod_lt m (Nat.two_pow_pos f.fractionBits)
  unfold significand
  split <;> omega

theorem units_mono {m m' : Nat} (h : m ≤ m') : f.units m ≤ f.units m' := by
  unfold units
  rcases Nat.lt_or_ge m (2 ^ f.fractionBits) with hm | hm
  · rw [f.scale_of_lt hm, f.significand_of_lt hm, Nat.pow_zero, Nat.mul_one]
    refine Nat.le_trans ?_ (Nat.le_mul_of_pos_right _ (Nat.two_pow_pos _))
    rcases Nat.lt_or_ge m' (2 ^ f.fractionBits) with hm' | hm'
    · rwa [f.significand_of_lt hm']
    · rw [f.significand_of_le hm']; omega
  · have hm' : 2 ^ f.fractionBits ≤ m' := Nat.le_trans hm h
    have hscale : f.scale m ≤ f.scale m' :=
      Nat.sub_le_sub_right (Nat.div_le_div_right h) _
    rcases Nat.eq_or_lt_of_le hscale with heq | hlt
    · have hdiv : m / 2 ^ f.fractionBits = m' / 2 ^ f.fractionBits := by
        rw [← f.scale_succ hm, ← f.scale_succ hm', heq]
      have h1 := Nat.div_add_mod m (2 ^ f.fractionBits)
      have h2 := Nat.div_add_mod m' (2 ^ f.fractionBits)
      rw [hdiv] at h1
      rw [heq, f.significand_of_le hm, f.significand_of_le hm']
      exact Nat.mul_le_mul_right _ (by omega)
    · calc f.significand m * 2 ^ f.scale m
          ≤ 2 ^ f.fractionBits * 2 * 2 ^ f.scale m :=
            Nat.mul_le_mul_right _ (Nat.le_of_lt (f.significand_lt m))
        _ = 2 ^ f.fractionBits * 2 ^ (f.scale m + 1) := by
            rw [Nat.pow_succ', Nat.mul_assoc]
        _ ≤ f.significand m' * 2 ^ f.scale m' := by
            refine Nat.mul_le_mul ?_ (Nat.pow_le_pow_right (by decide) hlt)
            rw [f.significand_of_le hm']
            exact Nat.le_add_right _ _

theorem shiftOf_units (m : Nat) : f.shiftOf (f.units m) = f.scale m := by
  unfold shiftOf units
  rcases Nat.lt_or_ge m (2 ^ f.fractionBits) with hm | hm
  · rw [f.scale_of_lt hm, f.significand_of_lt hm, Nat.pow_zero, Nat.mul_one]
    by_cases h0 : m = 0
    · rw [h0, Nat.log2_zero, Nat.zero_sub]
    · have := (Nat.log2_lt h0).2 hm
      omega
  · have hpos := Nat.two_pow_pos f.fractionBits
    have hsig : f.significand m ≠ 0 := by rw [f.significand_of_le hm]; omega
    have hlog : (f.significand m).log2 = f.fractionBits := by
      rw [Nat.log2_eq_iff hsig, Nat.pow_succ]
      exact ⟨by rw [f.significand_of_le hm]; omega, f.significand_lt m⟩
    rw [log2_mul_two_pow hsig, hlog, Nat.add_sub_cancel_left]

theorem nearest_units {m : Nat} (h : m ≤ f.infinity) : f.nearest (f.units m) 1 = m := by
  show min f.infinity (f.shiftOf (f.units m / 1) * 2 ^ f.fractionBits +
    divHalfEven (f.units m) (1 * 2 ^ f.shiftOf (f.units m / 1))) = m
  rw [Nat.div_one, f.shiftOf_units, Nat.one_mul, units, divHalfEven_mul_self _ (Nat.two_pow_pos _)]
  suffices hm : f.scale m * 2 ^ f.fractionBits + f.significand m = m by omega
  rcases Nat.lt_or_ge m (2 ^ f.fractionBits) with hlt | hle
  · rw [f.scale_of_lt hlt, f.significand_of_lt hlt, Nat.zero_mul, Nat.zero_add]
  · calc f.scale m * 2 ^ f.fractionBits + f.significand m
        = (f.scale m + 1) * 2 ^ f.fractionBits + m % 2 ^ f.fractionBits := by
          rw [f.significand_of_le hle, Nat.succ_mul, Nat.add_assoc]
      _ = m := by rw [f.scale_succ hle, Nat.mul_comm, Nat.div_add_mod]

/-! ## Exact results -/

/-- The word of a significand in its binade. -/
theorem units_word {a t : Nat} (ha : a < 2 ^ f.fractionBits * 2)
    (ht : t = 0 ∨ 2 ^ f.fractionBits ≤ a) : f.units (t * 2 ^ f.fractionBits + a) = a * 2 ^ t := by
  rcases Nat.lt_or_ge a (2 ^ f.fractionBits) with hlt | hle
  · obtain rfl : t = 0 := by omega
    rw [Nat.zero_mul, Nat.zero_add, units, f.scale_of_lt hlt, f.significand_of_lt hlt]
  · have hpos := Nat.two_pow_pos f.fractionBits
    have hword : t * 2 ^ f.fractionBits + a =
        (a - 2 ^ f.fractionBits) + 2 ^ f.fractionBits * (t + 1) := by
      rw [Nat.mul_succ, Nat.mul_comm]
      omega
    have hge : 2 ^ f.fractionBits ≤ t * 2 ^ f.fractionBits + a := Nat.le_add_left_of_le hle
    have hfrac : a - 2 ^ f.fractionBits < 2 ^ f.fractionBits := by omega
    have hsig : f.significand (t * 2 ^ f.fractionBits + a) = a := by
      rw [f.significand_of_le hge, hword, Nat.add_mul_mod_self_left, Nat.mod_eq_of_lt hfrac]
      omega
    have hscale : f.scale (t * 2 ^ f.fractionBits + a) = t := by
      rw [scale, hword, Nat.add_mul_div_left _ _ hpos, Nat.div_eq_of_lt hfrac]
      omega
    rw [units, hsig, hscale]

/-- What is a multiple of the step around it is not rounded. -/
theorem units_nearest {num : Nat} (hd : 2 ^ f.shiftOf num ∣ num)
    (h : f.nearest num 1 < f.infinity) : f.units (f.nearest num 1) = num := by
  obtain ⟨a, ha⟩ := hd
  rw [Nat.mul_comm] at ha
  have hpos := Nat.two_pow_pos (f.shiftOf num)
  have hdiv : divHalfEven num (1 * 2 ^ f.shiftOf (num / 1)) = a := by
    have hexact := divHalfEven_mul_self a hpos
    rw [← ha] at hexact
    rwa [Nat.div_one, Nat.one_mul]
  have hword : f.nearest num 1 = f.shiftOf num * 2 ^ f.fractionBits + a := by
    have hmin : f.nearest num 1 = min f.infinity (f.shiftOf (num / 1) * 2 ^ f.fractionBits +
      divHalfEven num (1 * 2 ^ f.shiftOf (num / 1))) := rfl
    rw [hdiv, Nat.div_one] at hmin
    omega
  have hlow : f.shiftOf num = 0 ∨ 2 ^ f.fractionBits ≤ a := by
    refine (Nat.eq_zero_or_pos _).imp_right fun hshift => ?_
    have hle := f.le_divHalfEven_shift num 1 (by rwa [Nat.div_one])
    rwa [hdiv] at hle
  have hhigh : a < 2 ^ f.fractionBits * 2 := by
    refine Nat.lt_of_mul_lt_mul_right (a := 2 ^ f.shiftOf num) ?_
    rw [← ha, ← Nat.pow_succ, ← Nat.pow_add]
    exact Nat.lt_of_lt_of_le Nat.lt_log2_self
      (Nat.pow_le_pow_right (by decide) (by unfold shiftOf; omega))
  rw [hword, f.units_word hhigh hlow, ← ha]

/-- A common factor of a quotient cancels. -/
theorem nearest_mul_mul (num den : Nat) {c : Nat} (hc : 0 < c) :
    f.nearest (num * c) (den * c) = f.nearest num den := by
  simp only [nearest, Nat.mul_div_mul_right _ _ hc, Nat.mul_right_comm den c,
    divHalfEven_mul_mul _ _ hc]

end Format

end Neighbors
