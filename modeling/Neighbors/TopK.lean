import Neighbors.Heap
import Neighbors.Error
import Neighbors.Metric

/-!
# The best `k` candidates

A `TopK` keeps the best candidates offered so far in a heap with the worst of them at the root.
`TopK.finish` sorts them into a row as long as the capacity. `Slots` are such rows end to end, with
the distances and the labels apart.
-/

namespace Neighbors

structure Candidate where
  distance : Binary32
  label : Label
  deriving DecidableEq, Repr

/-- Whether `a` ranks behind `b`: by distance, and by label if the distances are equal. -/
def Candidate.ranksAfter (metric : Metric) (a b : Candidate) : Bool :=
  metric.isBetter b.distance a.distance || (a.distance.eq b.distance && decide (b.label < a.label))

/-- What an unused slot holds. -/
def Candidate.padding : Candidate := ⟨.infinity, noLabel⟩

/-- Result slots: a distance and a label each, in two arrays. -/
structure Slots where
  distances : Array Binary32
  labels : Array Label
  deriving DecidableEq, Repr

namespace Slots

def ofCandidates (cs : List Candidate) : Slots :=
  ⟨(cs.map Candidate.distance).toArray, (cs.map Candidate.label).toArray⟩

def row (s : Slots) (k i : Nat) : Slots :=
  ⟨s.distances.extract (i * k) ((i + 1) * k), s.labels.extract (i * k) ((i + 1) * k)⟩

def candidates (s : Slots) : List Candidate :=
  List.zipWith Candidate.mk s.distances.toList s.labels.toList

/-- `size` slots cut into rows of `k`, one for each element of `l`. Where they are too few the last
row is cut short and the elements behind it have none; `row` is told the number of its slots. -/
def fillRows {α : Type} (size k : Nat) (l : List α) (row : Nat → α → List Candidate) : Slots :=
  ofCandidates (l.mapIdx fun i a => row (min k (size - i * k)) a).flatten

end Slots

/-- The best of the candidates offered, at most `capacity`. -/
structure TopK where
  metric : Metric
  capacity : Nat
  kept : Array Candidate
  size_le : kept.size ≤ capacity

namespace TopK

def empty (metric : Metric) (capacity : Nat) : TopK := ⟨metric, capacity, #[], Nat.zero_le _⟩

def size (t : TopK) : Nat := t.kept.size

def isEmpty (t : TopK) : Bool := t.size == 0

/-- The distance that a new candidate has to beat; none if there is no slot at all. -/
def threshold? (t : TopK) : Option Binary32 :=
  if t.size < t.capacity then some t.metric.worst else (t.kept[0]?).map Candidate.distance

/-- Offers a candidate. One without a label is ignored. -/
def push (t : TopK) (c : Candidate) : TopK :=
  let after := Candidate.ranksAfter t.metric
  if c.label = noLabel then t
  else if h : t.kept.size < t.capacity then
    let v := Heap.siftUp after (t.kept.push c).toVector t.kept.size
      (by rw [Array.size_push]; exact Nat.lt_succ_self _)
    { t with kept := v.toArray, size_le := by rw [Vector.size_toArray, Array.size_push]; exact h }
  else if h' : 0 < t.kept.size then
    if after t.kept[0] c then
      let v := Heap.siftDown after (t.kept.toVector.set 0 c) 0 t.kept.size (Nat.le_refl _)
      { t with kept := v.toArray, size_le := by simpa using t.size_le }
    else t
  else t

def extend (t : TopK) (cs : List Candidate) : TopK := cs.foldl push t

def ofCandidates (metric : Metric) (capacity : Nat) (cs : List Candidate) : TopK :=
  (empty metric capacity).extend cs

/-- The kept candidates, best first. -/
def sorted (t : TopK) : List Candidate :=
  (Heap.sort (Candidate.ranksAfter t.metric) t.kept.toVector t.kept.size (Nat.le_refl _)).toList

/-- A full row: the kept candidates, best first, then padding. -/
def finish (t : TopK) : List Candidate :=
  t.sorted ++ List.replicate (t.capacity - t.size) .padding

end TopK

end Neighbors
