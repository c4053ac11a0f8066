import Neighbors.Binary32.Arith
import Neighbors.Proofs.Rounding
import Neighbors.Proofs.Binary32.Order

/-!
# Differences and squares

A rounded difference falls as the number subtracted grows (`sub_key_le`), also where it overflows or
underflows; the other difference is its negation (`sub_key_comm`). A square has no sign and grows
with the magnitude (`mul_self_magnitude_le`). The order leaves NaN out, which makes any sum and any
square `nan`.
-/

namespace Neighbors.Binary32

variable {x y q a b : Binary32}

/-! ## Kinds of numbers -/

theorem not_isNaN_iff : ¬x.isNaN = true ↔ x.magnitude ≤ infinityWord := by
  simp [isNaN]

theorem magnitude_of_isInfinite (h : x.isInfinite = true) : x.magnitude = infinityWord := by
  simpa [isInfinite] using h

theorem isFinite_or_isInfinite (h : ¬x.isNaN = true) : x.isFinite = true ∨ x.isInfinite = true := by
  rw [not_isNaN_iff] at h
  simp only [isFinite, isInfinite, decide_eq_true_eq, beq_iff_eq]
  omega

theorem not_isNaN_of_isFinite (h : x.isFinite = true) : ¬x.isNaN = true := by
  rw [not_isNaN_iff]
  simp only [isFinite, decide_eq_true_eq] at h
  omega

theorem not_isInfinite_of_isFinite (h : x.isFinite = true) : x.isInfinite = false := by
  simp only [isFinite, decide_eq_true_eq] at h
  simp only [isInfinite, beq_eq_false_iff_ne]
  omega

theorem natAbs_key (x : Binary32) : x.key.natAbs = x.magnitude := by
  simp only [key, signed]
  split <;> omega

theorem natAbs_key_lt (h : x.isFinite = true) : x.key.natAbs < infinityWord := by
  rw [natAbs_key]
  simpa [isFinite] using h

theorem key_le_infinityWord (h : ¬x.isNaN = true) :
    -(infinityWord : Int) ≤ x.key ∧ x.key ≤ infinityWord := by
  have hm := not_isNaN_iff.1 h
  have hk := natAbs_key x
  omega

@[simp] theorem negative_neg (x : Binary32) : (neg x).negative = !x.negative := rfl

@[simp] theorem isNaN_neg (x : Binary32) : (neg x).isNaN = x.isNaN := rfl

@[simp] theorem isFinite_neg (x : Binary32) : (neg x).isFinite = x.isFinite := rfl

@[simp] theorem isInfinite_neg (x : Binary32) : (neg x).isInfinite = x.isInfinite := rfl

theorem key_neg (x : Binary32) : (neg x).key = -x.key := by
  by_cases h : x.negative = true <;> simp [key, signed, neg, h]

theorem signedUnits_neg (x : Binary32) : (neg x).signedUnits = -x.signedUnits := by
  by_cases h : x.negative = true <;> simp [signedUnits, signed, units, neg, h]

theorem signedUnits_le (h : x.key ≤ y.key) : x.signedUnits ≤ y.signedUnits := by
  have hxy : x.magnitude ≤ y.magnitude → x.units ≤ y.units := fun h => Format.units_mono _ h
  have hyx : y.magnitude ≤ x.magnitude → y.units ≤ x.units := fun h => Format.units_mono _ h
  have hzero : x.magnitude = 0 → x.units = 0 := fun h => by simp [units, h]
  have hzero' : y.magnitude = 0 → y.units = 0 := fun h => by simp [units, h]
  by_cases hx : x.negative = true <;> by_cases hy : y.negative = true <;>
    simp only [key, signedUnits, signed, hx, hy, Bool.false_eq_true, ↓reduceIte] at h ⊢ <;> omega

/-! ## Sums of finite numbers -/

/-- The key of the number nearest to `z` units. -/
def nearestKey (z : Int) : Int :=
  if z < 0 then -(Format.binary32.nearest z.natAbs 1 : Int) else Format.binary32.nearest z.natAbs 1

theorem nearestKey_neg (z : Int) : nearestKey (-z) = -nearestKey z := by
  have hzero : z = 0 → Format.binary32.nearest z.natAbs 1 = 0 := by
    rintro rfl
    exact Format.nearest_zero _ 1
  simp only [nearestKey, Int.natAbs_neg]
  split <;> split <;> omega

theorem nearestKey_mono {z w : Int} (h : z ≤ w) : nearestKey z ≤ nearestKey w := by
  have hzw : z.natAbs ≤ w.natAbs →
      Format.binary32.nearest z.natAbs 1 ≤ Format.binary32.nearest w.natAbs 1 :=
    fun h => Format.nearest_mono _ 1 h
  have hwz : w.natAbs ≤ z.natAbs →
      Format.binary32.nearest w.natAbs 1 ≤ Format.binary32.nearest z.natAbs 1 :=
    fun h => Format.nearest_mono _ 1 h
  simp only [nearestKey]
  split <;> split <;> omega

theorem key_ofUnits (negative : Bool) (num den : Nat) :
    (ofUnits negative num den).key =
      if negative then -(Format.binary32.nearest num den : Int)
      else Format.binary32.nearest num den := rfl

theorem key_add (hx : x.isFinite = true) (hy : y.isFinite = true) :
    (x + y).key = nearestKey (x.signedUnits + y.signedUnits) := by
  rw [add_eq hx hy]
  simp only [key_ofUnits, nearestKey]
  by_cases h0 : x.signedUnits + y.signedUnits = 0
  · simp [h0, Format.nearest_zero]
  · simp [h0]

theorem key_sub (hx : x.isFinite = true) (hy : y.isFinite = true) :
    (x - y).key = nearestKey (x.signedUnits - y.signedUnits) := by
  show (x + neg y).key = _
  rw [key_add hx (by simpa using hy), signedUnits_neg, Int.sub_eq_add_neg]

theorem not_isNaN_add (hx : x.isFinite = true) (hy : y.isFinite = true) :
    ¬(x + y).isNaN = true := by
  rw [not_isNaN_iff, add_eq hx hy, infinityWord_eq]
  exact Format.nearest_le_infinity ..

/-! ## Sums with NaN or infinity -/

theorem add_of_isNaN_left (hx : x.isNaN = true) (y : Binary32) : x + y = nan := by
  show add x y = nan
  rw [add, hx, Bool.true_or]
  rfl

theorem add_of_isNaN_right (x : Binary32) (hy : y.isNaN = true) : x + y = nan := by
  show add x y = nan
  rw [add, hy, Bool.or_true]
  rfl

theorem isNaN_add_right (hy : y.isNaN = true) : (x + y).isNaN = true := by
  rw [add_of_isNaN_right x hy]
  rfl

/-- An infinity stays, unless the other one is added to it. -/
theorem add_of_isInfinite_left (hx : x.isInfinite = true) (hy : ¬y.isNaN = true)
    (hs : y.isInfinite = true → y.negative = x.negative) : x + y = x := by
  have hnx : x.isNaN = false := by simp [isNaN, magnitude_of_isInfinite hx]
  have hother : (y.isInfinite && x.negative != y.negative) = false := by
    cases hi : y.isInfinite with
    | false => rfl
    | true => rw [hs hi, bne_self_eq_false, Bool.and_false]
  show add x y = x
  rw [add, hnx, Bool.eq_false_iff.2 hy, hx, hother]
  rfl

theorem add_of_isInfinite_right (hx : x.isFinite = true) (hy : y.isInfinite = true) :
    x + y = y := by
  have hnx : x.isNaN = false := by simpa using not_isNaN_of_isFinite hx
  have hny : y.isNaN = false := by simp [isNaN, magnitude_of_isInfinite hy]
  show add x y = y
  rw [add, hnx, hny, not_isInfinite_of_isFinite hx, hy]
  rfl

/-! ## Differences -/

theorem sub_of_isInfinite_left (hx : x.isInfinite = true) (h : ¬(x - y).isNaN = true) :
    x - y = x := by
  have hsub : x - y = add x (neg y) := rfl
  rw [hsub, add] at h ⊢
  split
  · next hn => rw [if_pos hn] at h; exact absurd rfl h
  · next hn =>
    rw [if_neg hn, if_pos hx] at h
    split
    · next hs => rw [if_pos hs] at h; exact absurd rfl h
    · rfl

theorem sub_of_isInfinite_right (hx : x.isFinite = true) (hy : y.isInfinite = true) :
    x - y = neg y :=
  add_of_isInfinite_right hx (by simpa using hy)

theorem not_isNaN_sub (hx : x.isFinite = true) (hy : ¬y.isNaN = true) :
    ¬(x - y).isNaN = true := by
  rcases isFinite_or_isInfinite hy with hy' | hy'
  · exact not_isNaN_add hx (by simpa using hy')
  · rw [sub_of_isInfinite_right hx hy']
    simpa using hy

theorem isNaN_sub_iff (hx : ¬x.isNaN = true) (hy : ¬y.isNaN = true) :
    (x - y).isNaN = true ↔ x.isInfinite = true ∧ y.isInfinite = true ∧ x.negative = y.negative := by
  rcases isFinite_or_isInfinite hx with hx' | hx'
  · have hfin := not_isInfinite_of_isFinite hx'
    simp [not_isNaN_sub hx' hy, hfin]
  · have hsub : x - y = add x (neg y) := rfl
    by_cases hs : y.isInfinite = true ∧ x.negative = y.negative
    · have hnan : x - y = nan := by simp [hsub, add, hx', hs.1, hs.2]
      simp only [hnan, hx', hs, and_self, iff_true]
      decide
    · have hself : x - y = x := by
        simp only [not_and] at hs
        simp [hsub, add, hx, hy, hx']
        exact fun hi he => absurd he (hs hi)
      simp [hself, hx, hx', hs]

theorem key_of_isInfinite (hx : x.isInfinite = true) :
    x.key = if x.negative then -(infinityWord : Int) else infinityWord := by
  rw [key, signed, magnitude_of_isInfinite hx]

/-- A NaN on either side makes the difference one. -/
theorem not_isNaN_of_not_isNaN_sub (h : ¬(x - y).isNaN = true) :
    ¬x.isNaN = true ∧ ¬y.isNaN = true := by
  have hsub : x - y = add x (neg y) := rfl
  rw [← not_or]
  intro hnan
  have hor : (x.isNaN || (neg y).isNaN) = true := by simpa using hnan
  rw [hsub, add, if_pos hor] at h
  exact h (by decide)

theorem sub_key_comm (h : ¬(x - y).isNaN = true) :
    ¬(y - x).isNaN = true ∧ (y - x).key = -(x - y).key := by
  obtain ⟨hx, hy⟩ := not_isNaN_of_not_isNaN_sub h
  have hyx : ¬(y - x).isNaN = true := by
    rw [isNaN_sub_iff hx hy] at h
    rw [isNaN_sub_iff hy hx]
    rintro ⟨hy', hx', hs⟩
    exact h ⟨hx', hy', hs.symm⟩
  refine ⟨hyx, ?_⟩
  rcases isFinite_or_isInfinite hx with hx' | hx' <;>
    rcases isFinite_or_isInfinite hy with hy' | hy'
  · rw [key_sub hx' hy', key_sub hy' hx', ← nearestKey_neg, Int.neg_sub]
  · rw [sub_of_isInfinite_left hy' hyx, sub_of_isInfinite_right hx' hy', key_neg, Int.neg_neg]
  · rw [sub_of_isInfinite_left hx' h, sub_of_isInfinite_right hy' hx', key_neg]
  · rw [sub_of_isInfinite_left hx' h, sub_of_isInfinite_left hy' hyx, key_of_isInfinite hx',
      key_of_isInfinite hy']
    have hs : ¬x.negative = y.negative := fun hs => h ((isNaN_sub_iff hx hy).2 ⟨hx', hy', hs⟩)
    by_cases hn : x.negative = true <;> by_cases hn' : y.negative = true <;> simp_all

/-- The more is subtracted, the less is left. -/
theorem sub_key_le (hqa : ¬(q - a).isNaN = true) (hqb : ¬(q - b).isNaN = true)
    (h : a.key ≤ b.key) : (q - b).key ≤ (q - a).key := by
  obtain ⟨hq, ha⟩ := not_isNaN_of_not_isNaN_sub hqa
  have hb := (not_isNaN_of_not_isNaN_sub hqb).2
  rcases isFinite_or_isInfinite hq with hq' | hq'
  · rcases isFinite_or_isInfinite ha with ha' | ha' <;>
      rcases isFinite_or_isInfinite hb with hb' | hb'
    · rw [key_sub hq' ha', key_sub hq' hb']
      exact nearestKey_mono (Int.sub_le_sub_left (signedUnits_le h) _)
    · have hfin := natAbs_key_lt ha'
      have hinf := key_of_isInfinite hb'
      have hle := key_le_infinityWord hqa
      rw [sub_of_isInfinite_right hq' hb', key_neg]
      split at hinf <;> omega
    · have hfin := natAbs_key_lt hb'
      have hinf := key_of_isInfinite ha'
      have hle := key_le_infinityWord hqb
      rw [sub_of_isInfinite_right hq' ha', key_neg]
      split at hinf <;> omega
    · rw [sub_of_isInfinite_right hq' ha', sub_of_isInfinite_right hq' hb', key_neg, key_neg]
      exact Int.neg_le_neg h
  · have ha' : q - a = q := sub_of_isInfinite_left hq' hqa
    have hb' : q - b = q := sub_of_isInfinite_left hq' hqb
    exact Int.le_of_eq (by rw [ha', hb'])

theorem sub_key_nonneg (hqa : ¬(q - a).isNaN = true) (h : a.key ≤ q.key) :
    0 ≤ (q - a).key := by
  obtain ⟨hq, ha⟩ := not_isNaN_of_not_isNaN_sub hqa
  rcases isFinite_or_isInfinite hq with hq' | hq'
  · have hself : (q - q).key = 0 := by
      rw [key_sub hq' hq', Int.sub_self]
      simp [nearestKey, Format.nearest_zero]
    rw [← hself]
    exact sub_key_le hqa (not_isNaN_sub hq' hq) h
  · have hinf := key_of_isInfinite hq'
    rw [sub_of_isInfinite_left hq' hqa]
    rcases isFinite_or_isInfinite ha with ha' | ha'
    · have hfin := natAbs_key_lt ha'
      split at hinf <;> omega
    · have hne : ¬q.negative = a.negative := fun hs => hqa ((isNaN_sub_iff hq ha).2 ⟨hq', ha', hs⟩)
      have hinf' := key_of_isInfinite ha'
      by_cases hn : q.negative = true <;> by_cases hn' : a.negative = true <;>
        simp [hn, hn'] at hne hinf hinf' <;> omega

theorem sub_key_nonpos (hqa : ¬(q - a).isNaN = true) (h : q.key ≤ a.key) :
    (q - a).key ≤ 0 := by
  obtain ⟨haq, hneg⟩ := sub_key_comm hqa
  have hnonneg := sub_key_nonneg haq h
  omega

/-! ## Squares -/

theorem mul_self_of_isInfinite (hx : x.isInfinite = true) : x * x = infinity := by
  have hmul : x * x = mul x x := rfl
  have hm := magnitude_of_isInfinite hx
  have hn : x.isNaN = false := by simp [isNaN, hm]
  have hz : x.isZero = false := by simp [isZero, hm, infinityWord]
  simp [hmul, mul, hx, hn, hz, infinity]

theorem mul_self_of_isFinite (hx : x.isFinite = true) :
    x * x = ofUnits false (x.units * x.units) unitsInOne := by
  rw [mul_eq hx hx, bne_self_eq_false]

theorem mul_self_negative (hx : ¬x.isNaN = true) : (x * x).negative = false := by
  rcases isFinite_or_isInfinite hx with hx' | hx'
  · rw [mul_self_of_isFinite hx']; rfl
  · rw [mul_self_of_isInfinite hx']; rfl

theorem mul_self_magnitude_le_infinityWord (hx : ¬x.isNaN = true) :
    (x * x).magnitude ≤ infinityWord := by
  rcases isFinite_or_isInfinite hx with hx' | hx'
  · rw [mul_self_of_isFinite hx', infinityWord_eq]
    exact Format.nearest_le_infinity ..
  · rw [mul_self_of_isInfinite hx']
    exact Nat.le_refl _

theorem not_isNaN_mul_self (hx : ¬x.isNaN = true) : ¬(x * x).isNaN = true :=
  not_isNaN_iff.2 (mul_self_magnitude_le_infinityWord hx)

theorem mul_self_of_isNaN (hx : x.isNaN = true) : x * x = nan := by
  show mul x x = nan
  rw [mul, hx]
  rfl

theorem isNaN_mul_self (hx : x.isNaN = true) : (x * x).isNaN = true := by
  rw [mul_self_of_isNaN hx]
  rfl

theorem mul_self_magnitude_le (hx : ¬x.isNaN = true) (hy : ¬y.isNaN = true)
    (h : x.magnitude ≤ y.magnitude) : (x * x).magnitude ≤ (y * y).magnitude := by
  rcases isFinite_or_isInfinite hy with hy' | hy'
  · have hx' : x.isFinite = true := by
      simp only [isFinite, decide_eq_true_eq] at hy' ⊢
      omega
    have hunits : x.units ≤ y.units := Format.units_mono _ h
    rw [mul_self_of_isFinite hx', mul_self_of_isFinite hy']
    exact Format.nearest_mono _ _ (Nat.mul_le_mul hunits hunits)
  · rw [mul_self_of_isInfinite hy']
    exact mul_self_magnitude_le_infinityWord hx

theorem mul_self_key_le (hx : ¬x.isNaN = true) (hy : ¬y.isNaN = true)
    (h : x.magnitude ≤ y.magnitude) : (x * x).key ≤ (y * y).key := by
  rw [key_of_not_negative (mul_self_negative hx), key_of_not_negative (mul_self_negative hy)]
  exact Int.ofNat_le.2 (mul_self_magnitude_le hx hy h)

/-- A sum that comes to the units of a number without a sign is that number. -/
theorem ofUnits_units (hx : ¬x.isNaN = true) (hs : x.negative = false) :
    ofUnits (if (x.units : Int) = 0 then false else decide ((x.units : Int) < 0))
      (x.units : Int).natAbs 1 = x := by
  have hword : Format.binary32.nearest x.units 1 = x.magnitude :=
    Format.nearest_units _ (not_isNaN_iff.1 hx)
  refine eq_of_parts_eq ?_ hword
  show (if (x.units : Int) = 0 then false else decide ((x.units : Int) < 0)) = x.negative
  rw [hs]
  split
  · rfl
  · exact decide_eq_false (by omega)

/-- The start of a sum does not change a number without a sign. -/
theorem negZero_add (hx : ¬x.isNaN = true) (hs : x.negative = false) : negZero + x = x := by
  rcases isFinite_or_isInfinite hx with hx' | hx'
  · have hsum : negZero.signedUnits + x.signedUnits = x.units := by
      simp [signedUnits, signed, units, negZero, hs]
    rw [add_eq (by decide) hx']
    simp only [hsum, hs, Bool.and_false]
    exact ofUnits_units hx hs
  · exact add_of_isInfinite_right (by decide) hx'

end Neighbors.Binary32
