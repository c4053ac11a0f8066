import Neighbors.Binary32.Basic

/-!
# The order of numbers

Away from NaN the comparisons compare keys, and the total order refines the order of the keys.
-/

namespace Neighbors.Binary32

theorem eq_iff {x y : Binary32} (hx : ¬x.isNaN = true) (hy : ¬y.isNaN = true) :
    x.eq y = true ↔ x.key = y.key := by
  simp [eq, hx, hy]

theorem lt_iff {x y : Binary32} (hx : ¬x.isNaN = true) (hy : ¬y.isNaN = true) :
    x.lt y = true ↔ x.key < y.key := by
  simp [lt, hx, hy]

theorem le_iff {x y : Binary32} (hx : ¬x.isNaN = true) (hy : ¬y.isNaN = true) :
    x.le y = true ↔ x.key ≤ y.key := by
  simp [le, hx, hy]

theorem lt_nan_left {x : Binary32} (h : x.isNaN = true) (y : Binary32) : x.lt y = false := by
  simp [lt, h]

theorem lt_nan_right (x : Binary32) {y : Binary32} (h : y.isNaN = true) : x.lt y = false := by
  simp [lt, h]

theorem le_nan_left {x : Binary32} (h : x.isNaN = true) (y : Binary32) : x.le y = false := by
  simp [le, h]

theorem le_nan_right (x : Binary32) {y : Binary32} (h : y.isNaN = true) : x.le y = false := by
  simp [le, h]

theorem key_le_of_totalKey_le {x y : Binary32} (h : x.totalKey ≤ y.totalKey) : x.key ≤ y.key := by
  simp only [totalKey, key, signed] at h ⊢
  split at h <;> split at h <;> simp_all
  omega

theorem eq_of_parts_eq {x y : Binary32} (hs : x.negative = y.negative)
    (hm : x.magnitude = y.magnitude) : x = y := by
  cases x
  cases y
  simp_all

theorem key_of_not_negative {x : Binary32} (hx : x.negative = false) : x.key = x.magnitude := by
  simp [key, signed, hx]

/-- Numbers without a sign are told apart by their keys. -/
theorem eq_of_key_eq {x y : Binary32} (hx : x.negative = false) (hy : y.negative = false)
    (h : x.key = y.key) : x = y := by
  refine eq_of_parts_eq (hx.trans hy.symm) ?_
  rwa [key_of_not_negative hx, key_of_not_negative hy, Int.natCast_inj] at h

end Neighbors.Binary32
