import Neighbors.Rounding

/-!
# Shortest decimals

`Decimal.shortest` finds the decimal with the fewest digits that rounds to a given word of a
format, and of those the one nearest to the word's value. The decimals that round to a word lie
between the midpoints to its two neighbours, ends included if the word is even. If a grid of
decimals has a point there, one of the two grid points next to the value is such a point, so for
each number of digits only those two are tried.
-/

namespace Neighbors

-- Powers are those of the core library, whatever else is imported.
attribute [local instance (high)] instPowNat

/-- The number `digits * 10 ^ exponent`. -/
structure Decimal where
  digits : Nat
  exponent : Int
  deriving DecidableEq, Repr

namespace Decimal

/-- The digit to choose when the value is halfway between two decimals. -/
inductive Tie where
  | even
  | up
  deriving DecidableEq, Repr

def digitCount (n : Nat) : Nat := (Nat.toDigits 10 n).length

/-- Drops trailing zeros, at most `fuel` of them. -/
def strip : Nat → Decimal → Decimal
  | 0, x => x
  | fuel + 1, x =>
    if x.digits ≠ 0 ∧ x.digits % 10 = 0 then strip fuel ⟨x.digits / 10, x.exponent + 1⟩ else x

/-- Halves of a unit: a word's value and the ends of the interval that rounds to it. -/
structure Interval where
  low : Nat
  value : Nat
  high : Nat
  closed : Bool

def Interval.ofWord (f : Format) (m : Nat) : Interval where
  low := f.units (m - 1) + f.units m
  value := 2 * f.units m
  high := f.units m + f.units (m + 1)
  closed := m % 2 == 0

/-- The best point of the grid `10 ^ exponent` inside the interval, if there is one. -/
def onGrid? (f : Format) (tie : Tie) (i : Interval) (exponent : Int) : Option Decimal :=
  let scale := 10 ^ (-exponent).toNat
  let step := 2 * f.one * 10 ^ exponent.toNat
  let below := i.value * scale / step
  let inside (c : Nat) : Bool :=
    if i.closed then decide (i.low * scale ≤ c * step ∧ c * step ≤ i.high * scale)
    else decide (i.low * scale < c * step ∧ c * step < i.high * scale)
  let rest := 2 * (i.value * scale % step)
  let goesUp :=
    if rest = step then tie == .up || below % 2 == 1 else decide (step < rest)
  if inside below && !(inside (below + 1) && goesUp) then some ⟨below, exponent⟩
  else if inside (below + 1) then some ⟨below + 1, exponent⟩
  else none

/-- The exponent of the leading digit of `num / den`, which is at least `10 ^ (-places)`. -/
def leadingExponent (places num den : Nat) : Int :=
  (digitCount (num * 10 ^ places / den) : Int) - 1 - places

/-- The shortest decimal that rounds to the positive finite word `m`, and the nearest of those. -/
def shortest (f : Format) (tie : Tie) (m : Nat) : Decimal :=
  let i := Interval.ofWord f m
  let lead := leadingExponent (2 ^ f.exponentBits) (f.units m) f.one
  let found := (List.range (f.fractionBits + 1)).findSome? fun (n : Nat) =>
    onGrid? f tie i (lead - n)
  let x := found.getD ⟨0, 0⟩
  strip (digitCount x.digits) x

end Decimal

end Neighbors
