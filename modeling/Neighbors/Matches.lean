import Neighbors.TopK

/-!
# Range matches

A range search answers any number of matches per query. `Matches` holds those of all queries end
to end, with the limits between the queries.
-/

namespace Neighbors

/-- The matches of query `i` are at the positions from `limits[i]` to below `limits[i + 1]`. -/
structure Matches where
  limits : Array Nat
  labels : Array Label
  distances : Array Binary32
  deriving DecidableEq, Repr

namespace Matches

/-- No match for any of `nq` queries. -/
def empty (nq : Nat) : Matches := ⟨.replicate (nq + 1) 0, #[], #[]⟩

def push (m : Matches) (part : List Candidate) : Matches where
  limits := m.limits.push (m.labels.size + part.length)
  labels := m.labels ++ (part.map Candidate.label).toArray
  distances := m.distances ++ (part.map Candidate.distance).toArray

/-- The matches of several queries in order. -/
def ofPartials (parts : List (List Candidate)) : Matches := parts.foldl push (empty 0)

def queryCount (m : Matches) : Nat := m.limits.size - 1

def total (m : Matches) : Nat := m.labels.size

def query (m : Matches) (i : Nat) : Slots :=
  let start := m.limits.getD i 0
  let stop := m.limits.getD (i + 1) 0
  ⟨m.distances.extract start stop, m.labels.extract start stop⟩

end Matches

end Neighbors
