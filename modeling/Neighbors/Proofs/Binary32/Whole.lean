import Neighbors.Count
import Neighbors.Proofs.Binary32.Finite

/-!
# Whole numbers in single precision

A count becomes a number by rounding (`ofNat`), and a number a count by its whole part, held to a
limit (`toCount`). Both keep the order, and so does a product of numbers without a sign, also where
it overflows. Up to `2 ^ 24` nothing is rounded (`ofNat_mul_ofNat`).
-/

namespace Neighbors.Binary32

-- Powers are those of the core library, whatever else is imported.
attribute [local instance (high)] instPowNat

variable {x y x' y' : Binary32} {n m : Nat}

/-! ## From counts -/

theorem ofNat_eq (n : Nat) : ofNat n = ofUnits false (n * unitsInOne) 1 := ofScaled_eq ..

theorem isNonneg_ofUnits (num den : Nat) : (ofUnits false num den).IsNonneg := by
  refine ⟨?_, rfl⟩
  rw [← Bool.not_eq_true, not_isNaN_iff, infinityWord_eq]
  exact Format.nearest_le_infinity ..

theorem isNonneg_ofNat (n : Nat) : (ofNat n).IsNonneg := by
  rw [ofNat_eq]
  exact isNonneg_ofUnits ..

theorem ofUnits_key_le {num num' : Nat} (den : Nat) (h : num ≤ num') :
    (ofUnits false num den).key ≤ (ofUnits false num' den).key := by
  rw [key_ofUnits, key_ofUnits]
  exact Int.ofNat_le.2 (Format.nearest_mono _ den h)

theorem ofUnits_mul_mul (negative : Bool) (num den : Nat) {c : Nat} (hc : 0 < c) :
    ofUnits negative (num * c) (den * c) = ofUnits negative num den := by
  simp only [ofUnits, Format.nearest_mul_mul _ _ _ hc]

theorem ofNat_key_le (h : n ≤ m) : (ofNat n).key ≤ (ofNat m).key := by
  rw [ofNat_eq, ofNat_eq]
  exact ofUnits_key_le 1 (Nat.mul_le_mul_right _ h)

theorem isFinite_of_key_le (hx : x.IsNonneg) (hy : y.IsNonneg) (h : x.key ≤ y.key)
    (hfin : y.isFinite = true) : x.isFinite = true := by
  rw [key_of_not_negative hx.negative, key_of_not_negative hy.negative] at h
  simp only [isFinite, decide_eq_true_eq] at hfin ⊢
  omega

/-- Every 64-bit count is near a finite number. -/
theorem isFinite_ofNat (h : n ≤ Count.limit) : (ofNat n).isFinite = true :=
  isFinite_of_key_le (isNonneg_ofNat n) (isNonneg_ofNat Count.limit) (ofNat_key_le h)
    (by decide +kernel)

/-! ## Products -/

theorem IsNonneg.mul (hx : x.IsNonneg) (hy : y.IsNonneg) (hx' : x.isFinite = true)
    (hy' : y.isFinite = true) : (x * y).IsNonneg := by
  rw [mul_eq hx' hy', hx.negative, hy.negative]
  exact isNonneg_ofUnits ..

theorem IsNonneg.units_le (hx : x.IsNonneg) (hy : y.IsNonneg) (h : x.key ≤ y.key) :
    x.units ≤ y.units := by
  have hle := signedUnits_le h
  rw [hx.isUnsigned.signedUnits, hy.isUnsigned.signedUnits] at hle
  exact Int.ofNat_le.1 hle

/-- A product grows with its factors. -/
theorem mul_key_le (hx : x.IsNonneg) (hy : y.IsNonneg) (hx' : x'.IsNonneg) (hy' : y'.IsNonneg)
    (hfx : x'.isFinite = true) (hfy : y'.isFinite = true) (hxx : x.key ≤ x'.key)
    (hyy : y.key ≤ y'.key) : (x * y).key ≤ (x' * y').key := by
  have hfx' := isFinite_of_key_le hx hx' hxx hfx
  have hfy' := isFinite_of_key_le hy hy' hyy hfy
  rw [mul_eq hfx' hfy', mul_eq hfx hfy, hx.negative, hy.negative, hx'.negative, hy'.negative]
  exact ofUnits_key_le _ (Nat.mul_le_mul (hx.units_le hx' hxx) (hy.units_le hy' hyy))

/-! ## To counts -/

theorem toCount_le (limit : Nat) (x : Binary32) : x.toCount limit ≤ limit := by
  unfold toCount
  split
  · exact Nat.zero_le _
  · split
    · exact Nat.le_refl _
    · exact Nat.min_le_left ..

theorem toCount_of_isFinite (hx : x.IsNonneg) (hfin : x.isFinite = true) (limit : Nat) :
    x.toCount limit = min limit (x.units / unitsInOne) := by
  unfold toCount
  rw [hx.isNaN, hx.negative, not_isInfinite_of_isFinite hfin]
  rfl

theorem toCount_of_isInfinite (hx : x.IsNonneg) (hinf : x.isInfinite = true) (limit : Nat) :
    x.toCount limit = limit := by
  unfold toCount
  rw [hx.isNaN, hx.negative, hinf]
  rfl

theorem toCount_mono (hx : x.IsNonneg) (hy : y.IsNonneg) (h : x.key ≤ y.key) (limit : Nat) :
    x.toCount limit ≤ y.toCount limit := by
  rcases isFinite_or_isInfinite hy.not_isNaN with hfin | hinf
  · have hunits : x.units / unitsInOne ≤ y.units / unitsInOne :=
      Nat.div_le_div_right (hx.units_le hy h)
    rw [toCount_of_isFinite hx (isFinite_of_key_le hx hy h hfin), toCount_of_isFinite hy hfin]
    omega
  · rw [toCount_of_isInfinite hy hinf]
    exact toCount_le limit x

/-! ## Exact ones -/

/-- Every count up to this one is a number. -/
def exactLimit : Nat := 0x1000000

theorem unitsInOne_pos : 0 < unitsInOne := Nat.two_pow_pos _

theorem units_ofNat (h : n ≤ exactLimit) : (ofNat n).units = n * unitsInOne := by
  rcases Nat.eq_or_lt_of_le h with rfl | hlt
  · decide +kernel
  rcases Nat.eq_zero_or_pos n with rfl | hpos
  · decide +kernel
  -- Fewer than 24 bits: the step around the number is one at most.
  have hbits : n.log2 < 24 := (Nat.log2_lt (Nat.ne_of_gt hpos)).2 hlt
  have hstep : Format.binary32.shiftOf (n * unitsInOne) ≤ oneBits := by
    show (n * 2 ^ oneBits).log2 - 23 ≤ oneBits
    rw [Format.log2_mul_two_pow (Nat.ne_of_gt hpos)]
    omega
  have hfin : (ofNat n).isFinite = true :=
    isFinite_ofNat (Nat.le_trans h (by decide))
  rw [ofNat_eq] at hfin ⊢
  refine Format.units_nearest _ ?_ ?_
  · exact Nat.dvd_trans (Nat.pow_dvd_pow 2 hstep) (Nat.dvd_mul_left _ n)
  · rw [← infinityWord_eq]
    exact of_decide_eq_true hfin

theorem ofNat_mul_ofNat (hn : n ≤ exactLimit) (hm : m ≤ exactLimit) :
    ofNat n * ofNat m = ofNat (n * m) := by
  have hlimit : exactLimit ≤ Count.limit := by decide
  have hfin : ∀ l ≤ exactLimit, (ofNat l).isFinite = true := fun l hl =>
    isFinite_ofNat (Nat.le_trans hl hlimit)
  have hunits : n * unitsInOne * (m * unitsInOne) = n * m * unitsInOne * unitsInOne :=
    (Nat.mul_mul_mul_comm ..).trans (Nat.mul_assoc (n * m) unitsInOne unitsInOne).symm
  have hcancel := ofUnits_mul_mul false (n * m * unitsInOne) 1 unitsInOne_pos
  rw [Nat.one_mul] at hcancel
  rw [mul_eq (hfin n hn) (hfin m hm), units_ofNat hn, units_ofNat hm, hunits,
    (isNonneg_ofNat n).negative, (isNonneg_ofNat m).negative, bne_self_eq_false, hcancel, ofNat_eq]

theorem toCount_ofNat (h : n ≤ exactLimit) (limit : Nat) :
    (ofNat n).toCount limit = min limit n := by
  have hfin : (ofNat n).isFinite = true := isFinite_ofNat (Nat.le_trans h (by decide))
  rw [toCount_of_isFinite (isNonneg_ofNat n) hfin, units_ofNat h,
    Nat.mul_div_cancel _ unitsInOne_pos]

end Neighbors.Binary32
