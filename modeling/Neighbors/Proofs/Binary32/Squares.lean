import Neighbors.Metric
import Neighbors.Proofs.Binary32.Difference

/-!
# Sums of squares

A sum of one or more squares has no sign (`isUnsigned_sum`), NaN included: any NaN on the way makes
it `nan`. A zero of either sign taken from such a number leaves its bits alone (`sub_of_isZero`);
taken from `-0` or from another NaN it would not.
-/

namespace Neighbors

namespace Binary32

variable {x y z : Binary32}

structure IsUnsigned (x : Binary32) : Prop where
  negative : x.negative = false
  eq_nan : x.isNaN = true → x = nan

theorem isUnsigned_nan : nan.IsUnsigned := ⟨rfl, fun _ => rfl⟩

theorem IsUnsigned.of_not_isNaN (hs : x.negative = false) (hx : ¬x.isNaN = true) : x.IsUnsigned :=
  ⟨hs, fun h => absurd h hx⟩

theorem isUnsigned_mul_self (x : Binary32) : (x * x).IsUnsigned := by
  by_cases hx : x.isNaN = true
  · rw [mul_self_of_isNaN hx]
    exact isUnsigned_nan
  · exact .of_not_isNaN (mul_self_negative hx) (not_isNaN_mul_self hx)

theorem IsUnsigned.signedUnits (hx : x.IsUnsigned) : x.signedUnits = x.units := by
  rw [Binary32.signedUnits, signed, hx.negative, if_neg Bool.false_ne_true]

theorem IsUnsigned.add (hx : x.IsUnsigned) (hy : y.IsUnsigned) : (x + y).IsUnsigned := by
  by_cases hnx : x.isNaN = true
  · rw [add_of_isNaN_left hnx]
    exact isUnsigned_nan
  by_cases hny : y.isNaN = true
  · rw [add_of_isNaN_right x hny]
    exact isUnsigned_nan
  rcases isFinite_or_isInfinite hnx with hx' | hx'
  · rcases isFinite_or_isInfinite hny with hy' | hy'
    · refine .of_not_isNaN ?_ (not_isNaN_add hx' hy')
      rw [add_eq hx' hy', hx.signedUnits, hy.signedUnits]
      show (if _ then _ else _) = false
      rw [hx.negative, Bool.false_and]
      split
      · rfl
      · exact decide_eq_false (by omega)
    · rw [add_of_isInfinite_right hx' hy']
      exact hy
  · rw [add_of_isInfinite_left hx' hny fun _ => hy.negative.trans hx.negative.symm]
    exact hx

theorem IsUnsigned.negZero_add (hx : x.IsUnsigned) : negZero + x = x := by
  by_cases hn : x.isNaN = true
  · rw [add_of_isNaN_right _ hn, hx.eq_nan hn]
  · exact Binary32.negZero_add hn hx.negative

theorem IsUnsigned.add_of_isZero (hx : x.IsUnsigned) (hz : z.isZero = true) : x + z = x := by
  have hm : z.magnitude = 0 := by simpa [isZero] using hz
  have hfin : z.isFinite = true := by simp [isFinite, hm, infinityWord]
  by_cases hn : x.isNaN = true
  · rw [add_of_isNaN_left hn, hx.eq_nan hn]
  rcases isFinite_or_isInfinite hn with hx' | hx'
  · have hsum : x.signedUnits + z.signedUnits = x.units := by
      rw [hx.signedUnits]
      simp [Binary32.signedUnits, signed, units, hm]
    rw [add_eq hx' hfin]
    simp only [hsum, hx.negative, Bool.false_and]
    exact ofUnits_units hn hx.negative
  · refine add_of_isInfinite_left hx' (not_isNaN_of_isFinite hfin) fun hi => ?_
    rw [not_isInfinite_of_isFinite hfin] at hi
    cases hi

/-- A zero of either sign taken away changes nothing. -/
theorem IsUnsigned.sub_of_isZero (hx : x.IsUnsigned) (hz : z.isZero = true) : x - z = x :=
  hx.add_of_isZero (z := neg z) hz

end Binary32

open Binary32

theorem isUnsigned_foldl {a : Binary32} {xs : List Binary32} (ha : a.IsUnsigned)
    (hxs : ∀ x ∈ xs, x.IsUnsigned) : (xs.foldl (· + ·) a).IsUnsigned := by
  induction xs generalizing a with
  | nil => exact ha
  | cons x xs ih =>
    exact ih (ha.add (hxs x List.mem_cons_self)) fun y hy => hxs y (List.mem_cons_of_mem _ hy)

/-- The sum of nothing is `-0`, but the first number takes that place. -/
theorem isUnsigned_sum {xs : List Binary32} (hne : xs ≠ []) (hxs : ∀ x ∈ xs, x.IsUnsigned) :
    (sum xs).IsUnsigned := by
  obtain ⟨x, xs, rfl⟩ := List.exists_cons_of_ne_nil hne
  have hx := hxs x List.mem_cons_self
  rw [sum, List.foldl_cons, hx.negZero_add]
  exact isUnsigned_foldl hx fun y hy => hxs y (List.mem_cons_of_mem _ hy)

theorem isUnsigned_squaredDistance {a b : Floats} (ha : 0 < a.size) (hb : 0 < b.size) :
    (squaredDistance a b).IsUnsigned := by
  refine isUnsigned_sum ?_ fun x hx => ?_
  · rw [← List.length_pos_iff, List.length_zipWith, Array.length_toList, Array.length_toList]
    exact Nat.lt_min.2 ⟨ha, hb⟩
  · obtain ⟨i, hi, rfl⟩ := List.mem_iff_getElem.1 hx
    rw [List.getElem_zipWith]
    exact isUnsigned_mul_self _

end Neighbors
