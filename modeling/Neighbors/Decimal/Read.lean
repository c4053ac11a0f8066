import Neighbors.Count
import Neighbors.Decimal.Text

/-!
# Reading numbers

Numbers as they stand on a command line. A count is decimal digits, with a plus sign if wanted. A
float has digits before or after a point or both, and an exponent if wanted, or is one of the words
for infinity and NaN in any case; it is rounded once.
-/

namespace Neighbors

namespace Decimal

/-- The value of decimal digits. Nothing, if there are none or something else is among them. -/
def digitsValue? (cs : List Char) : Option Nat :=
  if cs.isEmpty || !cs.all Char.isDigit then none
  else some (cs.foldl (fun n c => 10 * n + (c.toNat - '0'.toNat)) 0)

/-- A sign, if there is one, and the rest. -/
def sign : List Char → Bool × List Char
  | '+' :: cs => (false, cs)
  | '-' :: cs => (true, cs)
  | cs => (false, cs)

/-- The digits at the front, and the rest. -/
def span (cs : List Char) : List Char × List Char :=
  (cs.takeWhile Char.isDigit, cs.dropWhile Char.isDigit)

def exponent? : List Char → Option Int
  | [] => some 0
  | c :: cs =>
    if c == 'e' || c == 'E' then
      let (negative, cs) := sign cs
      (digitsValue? cs).map fun n => if negative then -(n : Int) else n
    else none

def unsigned? (cs : List Char) : Option Decimal := do
  let (whole, rest) := span cs
  let (fraction, rest) := match rest with
    | '.' :: rest => span rest
    | rest => ([], rest)
  let digits ← digitsValue? (whole ++ fraction)
  let e ← exponent? rest
  return ⟨digits, e - fraction.length⟩

end Decimal

/-- A count, which has at most 64 bits. -/
def Count.ofText? (text : String) : Option Nat :=
  let cs := match text.toList with
    | '+' :: cs => cs
    | cs => cs
  (Decimal.digitsValue? cs).filter (· ≤ Count.limit)

def Binary32.ofText? (text : String) : Option Binary32 :=
  let (negative, cs) := Decimal.sign text.toList
  match String.ofList (cs.map Char.toLower) with
  | "inf" | "infinity" => some { infinity with negative }
  | "nan" => some { nan with negative }
  | _ => (Decimal.unsigned? cs).map (ofDecimal negative)

end Neighbors
