/-!
# Counts and labels

Counts have 64 bits; `Count.mul?` and `Count.add?` answer nothing when a result does not fit, and
`Count.mul` wraps around. A label is a signed 64-bit integer; stored vectors have the labels
`0, 1, 2, …` by position.
-/

namespace Neighbors

namespace Count

def limit : Nat := 0xffffffffffffffff

def mul? (a b : Nat) : Option Nat := if a * b ≤ limit then some (a * b) else none

def add? (a b : Nat) : Option Nat := if a + b ≤ limit then some (a + b) else none

/-- The product of two counts where nothing checks that it fits: only its last 64 bits are left. -/
def mul (a b : Nat) : Nat := a * b % (limit + 1)

theorem mul_le (a b : Nat) : mul a b ≤ a * b := Nat.mod_le _ _

theorem mul_eq {a b : Nat} (h : a * b ≤ limit) : mul a b = a * b :=
  Nat.mod_eq_of_lt (Nat.lt_succ_of_le h)

end Count

abbrev Label := Int

/-- The label of an empty result slot. -/
abbrev noLabel : Label := -1

namespace Label

def least : Label := -0x8000000000000000
def greatest : Label := 0x7fffffffffffffff

/-- Whether the labels `first, …, first + n - 1` all lie below `count`. -/
def rangeWithin (first : Label) (n count : Nat) : Bool :=
  decide (0 ≤ first) && (Count.add? first.toNat n).any (· ≤ count)

/-- Whether `label` names one of `count` stored vectors. -/
def isStored (label : Label) (count : Nat) : Bool :=
  decide (0 ≤ label) && decide (label.toNat < count)

/-- The label to report for a range of `n` that is not stored: its last one, held to 64 bits. A
length past the greatest label counts backwards. -/
def lastOfRange (first : Label) (n : Nat) : Label :=
  min greatest (max least (first + ((n - 1 : Nat) : Int).bmod 0x10000000000000000))

end Label

end Neighbors
