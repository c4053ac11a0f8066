import Neighbors.Index.Flat

/-!
# The sorted index of one dimension

A `SortedAxis` index keeps its values with an order of their positions. A search finds the place of
the query in the sorted values (`locate`) and takes the nearer of the two neighbours on the
`Frontier` again and again. The order can lag behind the values; only a difference in length is
noticed.
-/

namespace Neighbors

structure SortedAxisSettings where
  /-- Sort again after every change. -/
  continuousUpdate : Bool := true
  /-- The least number of values to sort in parallel. The order is the same either way. -/
  parallelSortThreshold : Nat := 1000000
  deriving DecidableEq, Repr

structure SortedAxis where
  values : Floats
  /-- Positions of values in ascending order. -/
  order : Array Nat
  settings : SortedAxisSettings

/-- The positions of `values` in ascending order of all bit patterns, equal ones by position. -/
def sortedOrder (values : Floats) : Array Nat :=
  ((List.range values.size).mergeSort fun a b =>
    (values.getD a .zero).totalKey ≤ (values.getD b .zero).totalKey).toArray

/-- The sorted positions that the next results come from. -/
inductive Frontier where
  /-- The next smaller and the next larger value are both there. -/
  | both (left right : Nat)
  /-- Only smaller values are left, from this position down. -/
  | left (i : Nat)
  /-- Only larger values are left, from this position up. -/
  | right (i : Nat)
  | exhausted
  deriving DecidableEq, Repr

namespace Frontier

variable (value : Nat → Binary32) (q : Binary32)

/-- Narrows a bracket `value lo ≤ q < value hi` to neighbours. -/
def bracket (lo hi : Nat) : Nat × Nat :=
  if lo + 1 < hi then
    let mid := (lo + hi) / 2
    if (value mid).le q then bracket mid hi else bracket lo mid
  else (lo, hi)
termination_by hi - lo

/-- The place of `q` in `n` sorted values. -/
def locate (n : Nat) : Frontier :=
  if n = 0 then exhausted
  else if q.lt (value 0) then right 0
  else if (value (n - 1)).le q then left (n - 1)
  else
    let (lo, hi) := bracket value q 0 (n - 1)
    both lo hi

/-- The position of the next result among `n` sorted values, and what is left. -/
def next? (n : Nat) : Frontier → Option (Nat × Frontier)
  | both l r =>
    if (q - value l).lt (value r - q) then
      some (l, match l with | 0 => right r | l + 1 => both l r)
    else some (r, if r + 1 = n then left l else both l (r + 1))
  | left i => some (i, match i with | 0 => exhausted | i + 1 => left i)
  | right i => some (i, if i + 1 = n then exhausted else right (i + 1))
  | exhausted => none

/-- The positions of the next results; nothing where none is left. -/
def walk (n : Nat) : (k : Nat) → Frontier → List (Option Nat)
  | 0, _ => []
  | k + 1, f =>
    match f.next? value q n with
    | some (i, rest) => some i :: walk n k rest
    | none => none :: walk n k exhausted

end Frontier

namespace SortedAxis

def empty (settings : SortedAxisSettings) : SortedAxis := ⟨#[], #[], settings⟩

/-- The values as a flat index of dimension one. -/
def flat (s : SortedAxis) : Flat := ⟨⟨1, s.values, Nat.one_pos, Nat.mod_one _⟩, .l2⟩

def count (s : SortedAxis) : Nat := s.values.size

/-- Whether there is a position for each value. -/
def isCurrent (s : SortedAxis) : Bool := s.order.size == s.count

def update (s : SortedAxis) : SortedAxis := { s with order := sortedOrder s.values }

def updateIfContinuous (s : SortedAxis) : SortedAxis :=
  if s.settings.continuousUpdate then s.update else s

/-- The label at a sorted position. -/
def labelAt (s : SortedAxis) (i : Nat) : Nat := s.order.getD i 0

def valueAt (s : SortedAxis) (i : Nat) : Binary32 := s.values.getD (s.labelAt i) .zero

def candidateAt (s : SortedAxis) (q : Binary32) (i : Nat) : Candidate :=
  let diff := q - s.valueAt i
  ⟨diff * diff, s.labelAt i⟩

/-- The row for a query: outwards from its place, then padding. -/
def searchRow (s : SortedAxis) (k : Nat) (q : Binary32) : List Candidate :=
  let n := s.order.size
  (Frontier.walk s.valueAt q n k (Frontier.locate s.valueAt q n)).map fun
    | some i => s.candidateAt q i
    | none => .padding

def search (s : SortedAxis) (x : Floats) (k : Nat) (out : Slots) : Except Error Slots :=
  if !s.isCurrent then .error (.permutationStale s.order.size s.count)
  else (Index.checkShape 1 x k out).map fun _ =>
    .fillRows out.distances.size k x.toList s.searchRow

def add (s : SortedAxis) (x : Floats) : SortedAxis :=
  updateIfContinuous { s with values := s.values ++ x }

/-- Removal renumbers the values, so the order is dropped unless nothing was removed. -/
def remove (s : SortedAxis) (selector : Selector) : SortedAxis × Nat :=
  let (rest, compaction) := s.flat.remove selector
  if compaction.removed = 0 then (s, 0)
  else (updateIfContinuous { s with values := rest.vectors, order := #[] }, compaction.removed)

instance : Index SortedAxis where
  dimension _ := 1
  count := count
  isTrained _ := true
  metric _ := .l2
  train s x := .replace s ((rowCount 1 x).map fun _ => s)
  add s x := .replace s ((rowCount 1 x).map fun _ => s.add x)
  search s x k out := .replace out (s.search x k out)
  reset s := { s with values := #[], order := #[] }
  rangeSearch s := s.flat.rangeSearch
  removeIds s selector :=
    let (rest, removed) := s.remove selector
    ⟨.ok removed, rest⟩
  reconstruct s label out := .replace out (s.flat.reconstruct label out)
  reconstructN s first n out := .replace out (s.flat.reconstructN first n out)

end SortedAxis

end Neighbors
