import Neighbors.Binary32.Arith
import Neighbors.Count

/-!
# Number literals

A JSON number literal is kept as its digits, so that the reader of a field can tell `1` from `1.0`.
As a float it goes through double precision: as many digits as fit in 64 bits make a significand,
which is multiplied or divided by a power of ten and then rounded to single precision. Whole
literals that fit in 64 bits are rounded to single precision at once.
-/

namespace Neighbors.Json

-- Powers are those of the core library, whatever else is imported.
attribute [local instance (high)] instPowNat

/-- The digits of a literal, most significant first. -/
structure Number where
  negative : Bool
  whole : List Nat
  /-- The digits after the point. Without a point there are none. -/
  fraction : List Nat
  /-- The exponent's sign and digits. -/
  exponent : Option (Bool × List Nat)
  deriving DecidableEq, Repr

namespace Number

def ofDigits (digits : List Nat) : Nat := digits.foldl (fun n d => 10 * n + d) 0

/-- Whether the literal has neither point nor exponent. -/
def isWhole (x : Number) : Bool := x.fraction.isEmpty && x.exponent.isNone

/-- A count: a whole literal without a sign, of at most 64 bits. -/
def toCount? (x : Number) : Option Nat :=
  let n := ofDigits x.whole
  if x.isWhole && !x.negative && decide (n ≤ Count.limit) then some n else none

/-- Adds digits to a significand for as long as 64 bits hold it; the rest is left over. -/
def absorb : Nat → List Nat → Nat × List Nat
  | n, [] => (n, [])
  | n, d :: ds => if 10 * n + d ≤ Count.limit then absorb (10 * n + d) ds else (n, d :: ds)

/-- Significand and decimal exponent of the digits before the exponent field. -/
def parts (x : Number) : Nat × Int :=
  let (n, wholeRest) := absorb 0 x.whole
  let (m, fractionRest) := absorb n x.fraction
  (m, (wholeRest.length : Int) - (x.fraction.length - fractionRest.length : Nat))

/-- The largest exponent that is added up. -/
def exponentLimit : Int := 0x7fffffff

/-- The positive double-precision word `10 ^ e`. -/
def powerOfTen (e : Nat) : Nat := Format.binary64.nearest (10 ^ e * Format.binary64.one) 1

/-- A double-precision word times a power of ten. The power has a word of its own up to `10 ^ 308`;
smaller factors take several divisions. Nothing, if the result is infinite. -/
def scale : (fuel : Nat) → (word : Nat) → (exponent : Int) → Option Nat
  | 0, _, _ => some 0
  | fuel + 1, word, exponent =>
    let f := Format.binary64
    if exponent.natAbs ≤ 308 then
      let power := f.units (powerOfTen exponent.natAbs)
      if 0 ≤ exponent then
        let product := f.nearest (f.units word * power) f.one
        if product = f.infinity then none else some product
      else some (f.nearest (f.units word * f.one) power)
    else if word = 0 then some 0
    else if 0 ≤ exponent then none
    else
      scale fuel (f.nearest (f.units word * f.one) (f.units (powerOfTen 308))) (exponent + 308)

def toWord64? (x : Number) : Option Nat :=
  let (significand, base) := x.parts
  let word := Format.binary64.nearest (significand * Format.binary64.one) 1
  match x.exponent with
  | none => scale 4 word base
  | some (negative, digits) =>
    let e : Int := ofDigits digits
    if exponentLimit < e then if significand ≠ 0 ∧ !negative then none else some 0
    else
      let total := if negative then base - e else base + e
      scale 4 word (max (-exponentLimit - 1) (min exponentLimit total))

/-- A single-precision number. Nothing, if the literal is out of double range. -/
def toBinary32? (x : Number) : Option Binary32 :=
  let n := ofDigits x.whole
  if x.isWhole &&
      (if x.negative then decide (n ≤ 0x8000000000000000) else decide (n ≤ Count.limit)) then
    some (.ofUnits x.negative (n * Binary32.unitsInOne) 1)
  else
    x.toWord64?.map fun word =>
      .ofUnits x.negative (Format.binary64.units word * Binary32.unitsInOne) Format.binary64.one

end Number

end Neighbors.Json
