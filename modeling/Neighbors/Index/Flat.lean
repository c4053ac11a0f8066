import Neighbors.Index.Basic

/-!
# The flat index

A `Flat` index keeps vectors as they are and scores every one of them in a search.
-/

namespace Neighbors

structure Flat where
  storage : Storage
  metric : Metric

namespace Flat

def empty (d : Nat) (metric : Metric) : Except Error Flat :=
  (Storage.empty d).map fun storage => ⟨storage, metric⟩

def dimension (f : Flat) : Nat := f.storage.dimension
def count (f : Flat) : Nat := f.storage.count
def vectors (f : Flat) : Floats := f.storage.data

def vector? (f : Flat) (label : Label) : Option Floats :=
  if label < 0 then none else f.storage.row? label.toNat

def add (f : Flat) (x : Floats) : Except Error Flat :=
  (f.storage.append x).map fun storage => { f with storage }

def search (f : Flat) (x : Floats) (k : Nat) (out : Slots) : Except Error Slots :=
  (Index.checkShape f.dimension x k out).map fun _ =>
    Scan.nearest f.metric x f.vectors f.dimension k out.distances.size

def rangeSearch (f : Flat) (x : Floats) (radius : Binary32) : Except Error Matches :=
  (rowCount f.dimension x).map fun _ => Scan.within f.metric x f.vectors f.dimension radius

/-- Writes the distances of the rows that the labels of `out` name for each query. All labels are
checked first; an empty slot gets the metric's worst distance. -/
def rescore (f : Flat) (x : Floats) (k : Nat) (out : Slots) : Outcome Slots Unit :=
  match Index.checkShape f.dimension x k out with
  | .error e => .fail e out
  | .ok _ =>
    match out.labels.toList.find? fun l => l ≠ noLabel && !l.isStored f.count with
    | some label => .fail (.labelOutOfRange label f.count) out
    | none =>
      let distances := Scan.rescore f.metric x f.vectors f.dimension k out.labels out.distances
      .done { out with distances }

/-- Removes the vectors picked and says where the others went. -/
def remove (f : Flat) (selector : Selector) : Flat × Compaction :=
  let (storage, compaction) := f.storage.compact fun i => selector.isMember i
  ({ f with storage }, compaction)

/-- The stored vector with a label, for a buffer of its length. -/
def reconstruct (f : Flat) (label : Label) (out : Floats) : Except Error Floats :=
  if !label.isStored f.count then .error (.labelOutOfRange label f.count)
  else if out.size ≠ f.dimension then .error (.dimensionMismatch f.dimension out.size)
  else .ok ((f.storage.row? label.toNat).getD out)

/-- The stored vectors of `n` labels in a row, for a buffer of their length. -/
def reconstructN (f : Flat) (first : Label) (n : Nat) (out : Floats) : Except Error Floats := do
  Index.checkRows f.dimension n out
  match if first < 0 then none else f.storage.rows? first.toNat n with
  | some rows => .ok rows
  | none => .error (.labelOutOfRange (first.lastOfRange n) f.count)

instance : Index Flat where
  dimension := dimension
  count := count
  isTrained _ := true
  metric := metric
  train f x := .replace f ((rowCount f.dimension x).map fun _ => f)
  add f x := .replace f (f.add x)
  search f x k out := .replace out (f.search x k out)
  reset f := { f with storage := f.storage.clear }
  rangeSearch := rangeSearch
  removeIds f selector :=
    let (rest, compaction) := f.remove selector
    ⟨.ok compaction.removed, rest⟩
  reconstruct f label out := .replace out (f.reconstruct label out)
  reconstructN f first n out := .replace out (f.reconstructN first n out)

end Flat

end Neighbors
