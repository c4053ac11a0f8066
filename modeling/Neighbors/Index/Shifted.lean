import Neighbors.Index.Flat

/-!
# The shifted index

A `Shifted` index ranks by squared distance less a number of its own for each stored vector. The
numbers go by position; a search asks only that there are as many of them as stored vectors.
-/

namespace Neighbors

structure Shifted where
  storage : Storage
  shift : Floats

namespace Shifted

def empty (d : Nat) (shift : Floats) : Except Error Shifted :=
  (Storage.empty d).map fun storage => ⟨storage, shift⟩

/-- The stored vectors without their shift. -/
def flat (s : Shifted) : Flat := ⟨s.storage, .l2⟩

def setShift (s : Shifted) (shift : Floats) : Shifted := { s with shift }

def search (s : Shifted) (x : Floats) (k : Nat) (out : Slots) : Except Error Slots :=
  if s.shift.size ≠ s.storage.count then
    .error (.shiftSizeMismatch s.shift.size s.storage.count)
  else
    (Index.checkShape s.storage.dimension x k out).map fun _ =>
      Scan.nearestShifted x s.storage.data s.shift s.storage.dimension k out.distances.size

instance : Index Shifted where
  dimension s := s.storage.dimension
  count s := s.storage.count
  isTrained _ := true
  metric _ := .l2
  train s x := .replace s ((rowCount s.storage.dimension x).map fun _ => s)
  add s x := .replace s ((s.storage.append x).map fun storage => { s with storage })
  search s x k out := .replace out (s.search x k out)
  reset s := { s with storage := s.storage.clear }
  removeIds s selector :=
    let (rest, compaction) := s.flat.remove selector
    ⟨.ok compaction.removed, { s with storage := rest.storage }⟩
  reconstruct s label out := .replace out (s.flat.reconstruct label out)
  reconstructN s first n out := .replace out (s.flat.reconstructN first n out)

end Shifted

end Neighbors
