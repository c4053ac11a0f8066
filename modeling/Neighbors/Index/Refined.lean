import Neighbors.Index.Flat

/-!
# Refined search

A `Refined` index asks a base index for more candidates than needed, scores them again with exact
distances from a flat copy of the same vectors, and keeps the best. The base may be any index;
`Tower β n` is `n` refinements on top of one another over `β`.
-/

namespace Neighbors

structure RefineSettings where
  /-- How many candidates to ask for per result. -/
  factor : Binary32 := .one
  deriving DecidableEq, Repr

/-- The factor has to be finite and at least one. -/
def RefineSettings.validate (s : RefineSettings) : Except Error Unit :=
  if !s.factor.isFinite || s.factor.lt .one then .error (.invalidFactor s.factor) else .ok ()

structure Refined (β : Type) where
  base : β
  /-- The same vectors as in the base. -/
  exact : Flat
  factor : Binary32
  trained : Bool

namespace Refined

/-- The number of candidates for a request of `k`: the whole part of `k` times the factor, computed
in single precision, and at least `k`. -/
def candidateCount (factor : Binary32) (k : Nat) : Nat :=
  max ((Binary32.ofNat k * factor).toCount Count.limit) k

/-- The largest number of bytes that a buffer can have. -/
def byteLimit : Nat := 0x7fffffffffffffff

/-- Empty slots for candidates, four bytes a distance and eight a label. -/
def scratch (size : Nat) : Except Error Slots :=
  if byteLimit < 4 * size ∨ byteLimit < 8 * size then .error .allocation
  else .ok ⟨.replicate size .zero, .replicate size noLabel⟩

/-- The best of row `i` of `width` candidates. Without such a row the slots of `out` stay. -/
def rankRow (metric : Metric) (k width : Nat) (candidates out : Slots) (room i : Nat) :
    List Candidate :=
  if i * width < candidates.distances.size then
    (TopK.ofCandidates metric room (candidates.row width i).candidates).finish
  else (out.row k i).candidates

/-- The best `k` of each row of `width` candidates, written over `out`. -/
def rank (metric : Metric) (nq k width : Nat) (candidates out : Slots) : Slots :=
  .fillRows out.distances.size k (List.range nq) (rankRow metric k width candidates out)

variable {β : Type} [Index β]

def ofBase (base : β) (settings : RefineSettings) : Except Error (Refined β) := do
  settings.validate
  if Index.count base ≠ 0 then throw (.baseNotEmpty (Index.count base))
  let exact ← Flat.empty (Index.dimension base) (Index.metric base)
  return ⟨base, exact, settings.factor, Index.isTrained base⟩

def setFactor (r : Refined β) (factor : Binary32) : Outcome (Refined β) Unit :=
  match RefineSettings.validate ⟨factor⟩ with
  | .error e => .fail e r
  | .ok () => .done { r with factor }

def train (r : Refined β) (x : Floats) : Outcome (Refined β) Unit :=
  let o := Index.train r.base x
  match o.answer with
  | .error e => .fail e { r with base := o.state }
  | .ok () => .done { r with base := o.state, trained := true }

/-- Adds to the base, then to the copy. -/
def add (r : Refined β) (x : Floats) : Outcome (Refined β) Unit :=
  if !r.trained then .fail .notTrained r
  else match rowCount r.exact.dimension x with
    | .error e => .fail e r
    | .ok _ =>
      let o := Index.add r.base x
      match o.answer with
      | .error e => .fail e { r with base := o.state }
      | .ok () => (Outcome.replace r.exact (r.exact.add x)).mapState
          fun exact => { r with base := o.state, exact }

/-- The candidates of the base with exact distances. Nothing checks that there is room for all. -/
def candidates (r : Refined β) (x : Floats) (nq width : Nat) : Except Error Slots := do
  let blank ← scratch (Count.mul nq width)
  let found := Index.search r.base x width blank
  found.answer
  let scored := r.exact.rescore x width found.state
  scored.answer.map fun _ => scored.state

def search (r : Refined β) (x : Floats) (k : Nat) (out : Slots) : Except Error Slots :=
  if !r.trained then .error .notTrained
  else do
    let nq ← Index.checkShape r.exact.dimension x k out
    if nq = 0 ∨ k = 0 then return out
    let width := candidateCount r.factor k
    return rank r.exact.metric nq k width (← r.candidates x nq width) out

instance : Index (Refined β) where
  dimension r := r.exact.dimension
  count r := r.exact.count
  isTrained := trained
  metric r := r.exact.metric
  train := train
  add := add
  search r x k out := .replace out (r.search x k out)
  reset r := { r with base := Index.reset r.base, exact := Index.reset r.exact }
  reconstruct r label out := .replace out (r.exact.reconstruct label out)
  reconstructN r first n out := .replace out (r.exact.reconstructN first n out)

end Refined

/-- `n` refinements over an index. -/
def Tower (β : Type) : Nat → Type
  | 0 => β
  | n + 1 => Refined (Tower β n)

instance Tower.instIndex {β : Type} [Index β] : (n : Nat) → Index (Tower β n)
  | 0 => inferInstanceAs (Index β)
  | n + 1 =>
    have := Tower.instIndex (β := β) n
    inferInstanceAs (Index (Refined (Tower β n)))

end Neighbors
