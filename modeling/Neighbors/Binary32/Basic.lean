import Neighbors.Rounding

/-!
# Single-precision numbers

A `Binary32` is a sign and a magnitude word of 31 bits. Equality of `Binary32` is equality of
bits; `eq`, `lt` and `le` are the comparisons of the standard, false as soon as a side is not a
number and blind to the sign of zero. `totalKey` orders all bit patterns.
-/

namespace Neighbors

-- Powers are those of the core library, whatever else is imported.
attribute [local instance (high)] instPowNat

structure Binary32 where
  negative : Bool
  magnitude : Nat
  magnitude_lt : magnitude < 0x80000000
  deriving DecidableEq, Repr

namespace Binary32

def infinityWord : Nat := 0x7f800000

theorem infinityWord_eq : infinityWord = Format.binary32.infinity := by decide

def zero : Binary32 := ⟨false, 0, by decide⟩
def negZero : Binary32 := ⟨true, 0, by decide⟩
def one : Binary32 := ⟨false, 0x3f800000, by decide⟩
def infinity : Binary32 := ⟨false, infinityWord, by decide⟩
def negInfinity : Binary32 := ⟨true, infinityWord, by decide⟩
/-- The quiet NaN that arithmetic answers. -/
def nan : Binary32 := ⟨false, 0x7fc00000, by decide⟩

instance : Inhabited Binary32 := ⟨zero⟩

def isNaN (x : Binary32) : Bool := decide (infinityWord < x.magnitude)
def isInfinite (x : Binary32) : Bool := x.magnitude == infinityWord
def isFinite (x : Binary32) : Bool := decide (x.magnitude < infinityWord)
def isZero (x : Binary32) : Bool := x.magnitude == 0

/-- The magnitude in units of the least subnormal. -/
def units (x : Binary32) : Nat := Format.binary32.units x.magnitude

@[inline] def significand (x : Binary32) : Nat := Format.binary32.significand x.magnitude

@[inline] def scale (x : Binary32) : Nat := Format.binary32.scale x.magnitude

theorem units_eq (x : Binary32) : x.units = x.significand * 2 ^ x.scale := rfl

/-- A natural number with the sign of `x`. -/
@[inline] def signed (x : Binary32) (n : Nat) : Int := if x.negative then -(n : Int) else n

def signedUnits (x : Binary32) : Int := x.signed x.units

/-- Ranks the numbers by value. -/
def key (x : Binary32) : Int := x.signed x.magnitude

def eq (x y : Binary32) : Bool := !x.isNaN && !y.isNaN && x.key == y.key
def lt (x y : Binary32) : Bool := !x.isNaN && !y.isNaN && decide (x.key < y.key)
def le (x y : Binary32) : Bool := !x.isNaN && !y.isNaN && decide (x.key ≤ y.key)

/-- Ranks all bit patterns: negative NaN, negative numbers, `-0`, `0`, positive numbers, NaN. -/
def totalKey (x : Binary32) : Int := if x.negative then -(x.magnitude : Int) - 1 else x.magnitude

/-- The number of the given sign nearest to `num / den` units. -/
def ofUnits (negative : Bool) (num den : Nat) : Binary32 :=
  ⟨negative, Format.binary32.nearest num den,
    Nat.lt_of_le_of_lt (Format.nearest_le_infinity ..) (by decide)⟩

@[inline] def ofScaled (negative : Bool) (n up down : Nat) : Binary32 :=
  ⟨negative, Format.binary32.nearestScaled n up down,
    Nat.lt_of_le_of_lt (Format.nearestScaled_le_infinity ..) (by decide)⟩

theorem ofScaled_eq (negative : Bool) (n up down : Nat) :
    ofScaled negative n up down = ofUnits negative (n * 2 ^ up) (2 ^ down) := by
  simp only [ofScaled, ofUnits, Format.nearestScaled_eq]

end Binary32

end Neighbors
