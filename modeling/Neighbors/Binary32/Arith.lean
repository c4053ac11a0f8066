import Neighbors.Binary32.Basic

/-!
# Arithmetic in single precision

Each operation computes the exact result and rounds it once, to nearest with ties to even;
subnormals are kept. An invalid operation answers `nan`.
-/

namespace Neighbors.Binary32

-- Powers are those of the core library, whatever else is imported.
attribute [local instance (high)] instPowNat

/-- The binary logarithm of `1` in units. -/
abbrev oneBits : Nat := 149

def unitsInOne : Nat := 2 ^ oneBits

def neg (x : Binary32) : Binary32 := { x with negative := !x.negative }

/-- The number as a multiple of `2 ^ e` units, where `e` is at most its scale. -/
@[inline] def multipleOf (e : Nat) (x : Binary32) : Int :=
  x.signed (x.significand * 2 ^ (x.scale - e))

theorem multipleOf_mul {e : Nat} {x : Binary32} (h : e ≤ x.scale) :
    x.multipleOf e * 2 ^ e = x.signedUnits := by
  have hu : x.units = x.significand * 2 ^ (x.scale - e) * 2 ^ e := by
    rw [units_eq, Nat.mul_assoc, ← Nat.pow_add, Nat.sub_add_cancel h]
  simp only [multipleOf, signedUnits, signed, hu]
  split
  · rw [Int.neg_mul, Int.natCast_mul _ (2 ^ e), Int.natCast_pow]
    rfl
  · rw [Int.natCast_mul _ (2 ^ e), Int.natCast_pow]
    rfl

/-- A zero sum of finite numbers is negative only if both terms are. -/
def add (x y : Binary32) : Binary32 :=
  if x.isNaN || y.isNaN then nan
  else if x.isInfinite then
    if y.isInfinite && x.negative != y.negative then nan else x
  else if y.isInfinite then y
  else
    let e := min x.scale y.scale
    let sum := x.multipleOf e + y.multipleOf e
    ofScaled (if sum = 0 then x.negative && y.negative else decide (sum < 0)) sum.natAbs e 0

def sub (x y : Binary32) : Binary32 := add x (neg y)

def mul (x y : Binary32) : Binary32 :=
  let negative := x.negative != y.negative
  if x.isNaN || y.isNaN then nan
  else if x.isInfinite || y.isInfinite then
    if x.isZero || y.isZero then nan else { infinity with negative }
  else ofScaled negative (x.significand * y.significand) (x.scale + y.scale) oneBits

def div (x y : Binary32) : Binary32 :=
  let negative := x.negative != y.negative
  if x.isNaN || y.isNaN then nan
  else if x.isInfinite then
    if y.isInfinite then nan else { infinity with negative }
  else if y.isInfinite then { zero with negative }
  else if y.isZero then
    if x.isZero then nan else { infinity with negative }
  else ofUnits negative (x.units * unitsInOne) y.units

instance : Neg Binary32 := ⟨neg⟩
instance : Add Binary32 := ⟨add⟩
instance : Sub Binary32 := ⟨sub⟩
instance : Mul Binary32 := ⟨mul⟩
instance : Div Binary32 := ⟨div⟩

def ofNat (n : Nat) : Binary32 := ofScaled false n oneBits 0

/-- The whole part as a count: `0` below zero and for `nan`, at most `limit`. -/
def toCount (limit : Nat) (x : Binary32) : Nat :=
  if x.isNaN || x.negative then 0
  else if x.isInfinite then limit
  else min limit (x.units / unitsInOne)

/-- The nearest whole number, a half going away from zero; the sign stays, also of zero. -/
def round (x : Binary32) : Binary32 :=
  if x.isFinite then
    ofScaled x.negative ((2 * x.units + unitsInOne) / (2 * unitsInOne)) oneBits 0
  else x

/-- The sum of finite numbers is their exact sum, rounded. -/
theorem add_eq {x y : Binary32} (hx : x.isFinite) (hy : y.isFinite) :
    x + y =
      let sum := x.signedUnits + y.signedUnits
      ofUnits (if sum = 0 then x.negative && y.negative else decide (sum < 0)) sum.natAbs 1 := by
  have nx : x.isNaN = false := by simp [isNaN, isFinite] at *; omega
  have ny : y.isNaN = false := by simp [isNaN, isFinite] at *; omega
  have ix : x.isInfinite = false := by simp [isInfinite, isFinite] at *; omega
  have iy : y.isInfinite = false := by simp [isInfinite, isFinite] at *; omega
  have hs : x.signedUnits + y.signedUnits =
      (x.multipleOf (min x.scale y.scale) + y.multipleOf (min x.scale y.scale)) *
        2 ^ min x.scale y.scale := by
    rw [Int.add_mul, multipleOf_mul (Nat.min_le_left ..), multipleOf_mul (Nat.min_le_right ..)]
  have hp : (0 : Int) < 2 ^ min x.scale y.scale := Int.pow_pos (by decide)
  show add x y = _
  simp only [add, nx, ny, ix, iy, hs, ofScaled_eq, Int.natAbs_mul]
  have h0 : ∀ a : Int, a * 2 ^ min x.scale y.scale = 0 ↔ a = 0 := by
    intro a
    rw [Int.mul_eq_zero, or_iff_left (Int.ne_of_gt hp)]
  have hn : ∀ a : Int, a * 2 ^ min x.scale y.scale < 0 ↔ a < 0 := by
    intro a
    refine ⟨fun h => ?_, fun h => Int.mul_neg_of_neg_of_pos h hp⟩
    apply Int.not_le.1
    intro ha
    have := Int.mul_nonneg ha (Int.le_of_lt hp)
    omega
  simp [h0, hn, Int.natAbs_pow]

theorem mul_eq {x y : Binary32} (hx : x.isFinite) (hy : y.isFinite) :
    x * y = ofUnits (x.negative != y.negative) (x.units * y.units) unitsInOne := by
  have nx : x.isNaN = false := by simp [isNaN, isFinite] at *; omega
  have ny : y.isNaN = false := by simp [isNaN, isFinite] at *; omega
  have ix : x.isInfinite = false := by simp [isInfinite, isFinite] at *; omega
  have iy : y.isInfinite = false := by simp [isInfinite, isFinite] at *; omega
  have hu : x.units * y.units = x.significand * y.significand * 2 ^ (x.scale + y.scale) := by
    rw [units_eq, units_eq, Nat.pow_add, Nat.mul_mul_mul_comm]
  show mul x y = _
  simp [mul, nx, ny, ix, iy, ofScaled_eq, hu, unitsInOne]

end Neighbors.Binary32
