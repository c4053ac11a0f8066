import Neighbors.Binary32.Arith
import Neighbors.Decimal.Shortest

/-!
# Decimal text of single-precision numbers

Three spellings: `plain` has the shortest digits and never an exponent, `json` has the shortest
digits and an exponent for numbers that are far from one, `fixed` has a given number of places.
-/

namespace Neighbors

-- Powers are those of the core library, whatever else is imported.
attribute [local instance (high)] instPowNat

namespace Decimal

/-- The digits of `n` with leading zeros up to `width`. -/
def paddedDigits (width n : Nat) : String :=
  let ds := Nat.toDigits 10 n
  String.ofList (List.replicate (width - ds.length) '0' ++ ds)

/-- Positional text, with a point only if there is a fraction. -/
def positional (x : Decimal) : String :=
  let ds := Nat.toDigits 10 x.digits
  let point : Int := ds.length + x.exponent
  if 0 ≤ x.exponent then String.ofList (ds ++ List.replicate x.exponent.toNat '0')
  else if 0 < point then
    String.ofList (ds.take point.toNat ++ '.' :: ds.drop point.toNat)
  else "0." ++ String.ofList (List.replicate (-point).toNat '0' ++ ds)

/-- One digit before the point; the exponent always has a sign. -/
def scientific (x : Decimal) : String :=
  let ds := Nat.toDigits 10 x.digits
  let e : Int := x.exponent + ds.length - 1
  let mantissa := match ds with
    | [] => ""
    | [d] => String.ofList [d]
    | d :: rest => String.ofList (d :: '.' :: rest)
  mantissa ++ "e" ++ (if e < 0 then "-" else "+") ++ toString e.natAbs

def lead (x : Decimal) : Int := x.exponent + (digitCount x.digits : Nat) - 1

end Decimal

namespace Binary32

open Decimal

def signText (x : Binary32) : String := if x.negative then "-" else ""

/-- Shortest digits without exponent; a tie goes up. -/
def plain (x : Binary32) : String :=
  if x.isNaN then "NaN"
  else if x.isInfinite then x.signText ++ "inf"
  else if x.isZero then x.signText ++ "0"
  else x.signText ++ (shortest .binary32 .up x.magnitude).positional

/-- Shortest digits, a tie going to the even one: positional with at least one place from
`1e-6` to below `1e13`, else with an exponent. What is not finite is `null`. -/
def json (x : Binary32) : String :=
  if !x.isFinite then "null"
  else if x.isZero then x.signText ++ "0.0"
  else
    let d := shortest .binary32 .even x.magnitude
    let body :=
      if -6 ≤ d.lead ∧ d.lead ≤ 12 then
        if 0 ≤ d.exponent then d.positional ++ ".0" else d.positional
      else d.scientific
    x.signText ++ body

/-- The exact value rounded to `places` places, a tie going to the even digit. -/
def fixed (places : Nat) (x : Binary32) : String :=
  if x.isNaN then "NaN"
  else if x.isInfinite then x.signText ++ "inf"
  else
    let n := divHalfEven (x.units * 10 ^ places) unitsInOne
    x.signText ++ toString (n / 10 ^ places) ++ "." ++ paddedDigits places (n % 10 ^ places)

def ofDecimal (negative : Bool) (x : Decimal) : Binary32 :=
  let order := x.exponent + (digitCount x.digits : Nat)
  if x.digits = 0 || order < -256 then { zero with negative }
  else if 256 < order then { infinity with negative }
  else ofUnits negative (x.digits * 10 ^ x.exponent.toNat * unitsInOne) (10 ^ (-x.exponent).toNat)

end Binary32

end Neighbors
