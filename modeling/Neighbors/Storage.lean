import Neighbors.Error
import Neighbors.Metric

/-!
# Row-major storage

A `Storage` holds vectors of one dimension end to end; row `i` is the vector with label `i`.
`Storage.compact` drops rows and closes the gaps; its `Compaction` says where each row went.
-/

namespace Neighbors

/-- The number of rows of `d` components in `x`. -/
def rowCount (d : Nat) (x : Floats) : Except Error Nat :=
  if d = 0 then .error .invalidDimension
  else if x.size % d ≠ 0 then .error (.dimensionMismatch d x.size)
  else .ok (x.size / d)

/-- Row `i` of `d` components of `x`. -/
def rowOf (d : Nat) (x : Floats) (i : Nat) : Floats := x.extract (i * d) ((i + 1) * d)

theorem size_rowOf {d i : Nat} {x : Floats} (h : (i + 1) * d ≤ x.size) :
    (rowOf d x i).size = d := by
  simp only [rowOf, Array.size_extract, Nat.add_mul, Nat.one_mul] at *
  omega

/-- Where the rows of a storage went when some were removed. -/
structure Compaction where
  /-- The number of rows removed. -/
  removed : Nat
  /-- The new label of each old row, or `noLabel`. -/
  oldToNew : Array Label
  deriving DecidableEq, Repr

/-- The label that the row with old label `label` has now, if it survived. -/
def Compaction.newLabel? (c : Compaction) (label : Label) : Option Label :=
  if label < 0 then none else (c.oldToNew[label.toNat]?).filter (· ≠ noLabel)

/-- Whole rows of a positive dimension, end to end. -/
structure Storage where
  dimension : Nat
  data : Floats
  dimension_pos : 0 < dimension
  whole : data.size % dimension = 0

namespace Storage

def empty (d : Nat) : Except Error Storage :=
  if h : 0 < d then .ok ⟨d, #[], h, Nat.zero_mod d⟩ else .error .invalidDimension

def count (s : Storage) : Nat := s.data.size / s.dimension

theorem count_mul (s : Storage) : s.count * s.dimension = s.data.size :=
  Nat.div_mul_cancel (Nat.dvd_of_mod_eq_zero s.whole)

def isEmpty (s : Storage) : Bool := s.data.isEmpty

/-- Adds the rows of `x` at the end, unless `x` has a part of a row. -/
def append (s : Storage) (x : Floats) : Except Error Storage :=
  if h : x.size % s.dimension = 0 then
    .ok { s with
      data := s.data ++ x
      whole := by simp [Array.size_append, Nat.add_mod, h, s.whole] }
  else .error (.dimensionMismatch s.dimension x.size)

/-- Rows `first, …, first + n - 1` end to end, if all are stored. Offsets are 64-bit counts. -/
def rows? (s : Storage) (first n : Nat) : Option Floats := do
  let start ← Count.mul? first s.dimension
  let stop ← Count.mul? (← Count.add? first n) s.dimension
  if start ≤ stop ∧ stop ≤ s.data.size then some (s.data.extract start stop) else none

def row? (s : Storage) (i : Nat) : Option Floats := s.rows? i 1

def clear (s : Storage) : Storage := { s with data := #[], whole := Nat.zero_mod _ }

/-- One pass of a compaction: the rows kept so far, and the new labels of the rows seen. -/
structure Compacting (d : Nat) where
  data : Floats
  kept : Nat
  oldToNew : Array Label
  whole : data.size = kept * d

/-- Looks at row `i`: removes it, or moves it down to the end of the kept rows. -/
def Compacting.step (s : Storage) (remove : Nat → Bool) (c : Compacting s.dimension)
    (i : Fin s.count) : Compacting s.dimension :=
  if remove i then { c with oldToNew := c.oldToNew.push noLabel }
  else
    { data := c.data ++ rowOf s.dimension s.data i
      kept := c.kept + 1
      oldToNew := c.oldToNew.push c.kept
      whole := by
        have h : (i.val + 1) * s.dimension ≤ s.data.size := by
          rw [← s.count_mul]; exact Nat.mul_le_mul_right _ i.isLt
        rw [Array.size_append, c.whole, size_rowOf h, Nat.add_mul, Nat.one_mul] }

/-- Drops every row whose position `remove` picks; the rest keep their order. -/
def compact (s : Storage) (remove : Nat → Bool) : Storage × Compaction :=
  let c := (List.finRange s.count).foldl (Compacting.step s remove) ⟨#[], 0, #[], by simp⟩
  ({ s with data := c.data, whole := by rw [c.whole, Nat.mul_mod_left] },
    ⟨s.count - c.kept, c.oldToNew⟩)

end Storage

end Neighbors
