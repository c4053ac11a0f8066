import Neighbors.Scan
import Neighbors.Selector

/-!
# Indexes

An `Index` stores vectors of one dimension and answers searches among them. Output buffers belong
to the caller: a search is given slots and leaves slots, and the `Outcome` shows what they hold
after a failure. What not every index can do fails with `Error.unsupported` unless an instance
says otherwise; the operations after the class work on every index. How many slots a batch of
queries takes is a product of counts that nothing checks (`Count.mul`).
-/

namespace Neighbors

namespace Index

/-- Checks queries `x` against the slots for the best `k` of each; answers the number of queries. -/
def checkShape (d : Nat) (x : Floats) (k : Nat) (out : Slots) : Except Error Nat := do
  let nq ← rowCount d x
  let size := Count.mul nq k
  if out.distances.size ≠ size then .error (.dimensionMismatch size out.distances.size)
  else if out.labels.size ≠ size then .error (.dimensionMismatch size out.labels.size)
  else .ok nq

/-- Checks a buffer for `n` rows. Its length is a 64-bit count. -/
def checkRows (d n : Nat) (out : Floats) : Except Error Unit :=
  if Count.mul? n d = some out.size then .ok ()
  else .error (.dimensionMismatch (min Count.limit (n * d)) out.size)

/-- The vectors with the given labels end to end, each reconstructed over a row of `d` times
`blank`. An empty slot leaves that row. -/
def collectRows (reconstruct : Label → Floats → Outcome Floats Unit) (d : Nat) (blank : Binary32)
    (labels : List Label) : Except Error Floats := do
  let rows ← labels.mapM fun label =>
    let row : Floats := .replicate d blank
    if label = noLabel then .ok row
    else
      let o := reconstruct label row
      o.answer.map fun _ => o.state
  return (rows.flatMap Array.toList).toArray

/-- A buffer of `size` components with the vectors of the first labels, as many as have whole rows
in it, and NaN where no vector is. -/
def stageRows (reconstruct : Label → Floats → Outcome Floats Unit) (d size : Nat)
    (labels : List Label) : Except Error Floats :=
  (collectRows reconstruct d .nan (labels.take (size / d))).map
    (· ++ Array.replicate (size % d) .nan)

/-- Reconstructs vectors one by one. Nothing is written before all are there. -/
def reconstructEach (d count : Nat) (reconstruct : Label → Floats → Outcome Floats Unit)
    (first : Label) (n : Nat) (out : Floats) : Outcome Floats Unit :=
  .replace out do
    checkRows d n out
    if Label.rangeWithin first n count then
      collectRows reconstruct d .zero ((List.range n).map fun (i : Nat) => first + i)
    else .error (.labelOutOfRange (Label.lastOfRange first n) count)

end Index

class Index (σ : Type) where
  /-- The number of components of every stored vector. -/
  dimension : σ → Nat
  /-- The number of stored vectors. -/
  count : σ → Nat
  /-- Whether vectors can be added. -/
  isTrained : σ → Bool
  /-- The metric that ranks results. -/
  metric : σ → Metric
  /-- Learns from a representative batch. -/
  train : σ → Floats → Outcome σ Unit
  /-- Stores a batch under the next labels. -/
  add : σ → Floats → Outcome σ Unit
  /-- Writes the best `k` stored vectors for each query. -/
  search : σ → (queries : Floats) → (k : Nat) → Slots → Outcome Slots Unit
  /-- Drops every stored vector. -/
  reset : σ → σ
  /-- Stores a batch under labels that the caller chooses. -/
  addWithIds : σ → Floats → Array Label → Outcome σ Unit :=
    fun s _ _ => .fail (.unsupported .addWithIds) s
  /-- All stored vectors within the radius of each query. -/
  rangeSearch : σ → (queries : Floats) → (radius : Binary32) → Except Error Matches :=
    fun _ _ _ => .error (.unsupported .rangeSearch)
  /-- Removes the stored vectors picked; answers how many there were. -/
  removeIds : σ → Selector → Outcome σ Nat :=
    fun s _ => .fail (.unsupported .removeIds) s
  /-- Writes one stored vector. -/
  reconstruct : σ → Label → Floats → Outcome Floats Unit :=
    fun _ _ out => .fail (.unsupported .reconstruct) out
  /-- Writes the stored vectors of `n` labels in a row. -/
  reconstructN : σ → (first : Label) → (n : Nat) → Floats → Outcome Floats Unit :=
    fun s => Index.reconstructEach (dimension s) (count s) (reconstruct s)

namespace Index

variable {σ : Type} [Index σ]

def isEmpty (s : σ) : Bool := count s == 0

/-- Search results for a batch: `k` slots per query. -/
structure Results where
  queryCount : Nat
  k : Nat
  slots : Slots

def Results.row (r : Results) (i : Nat) : Slots := r.slots.row r.k i

/-- Searches with slots of its own. -/
def searchKnn (s : σ) (x : Floats) (k : Nat) : Except Error Results := do
  let nq ← rowCount (dimension s) x
  let size := Count.mul nq k
  let o := search s x k ⟨.replicate size .zero, .replicate size noLabel⟩
  o.answer.map fun _ => ⟨nq, k, o.state⟩

def assign (s : σ) (x : Floats) (k : Nat) : Except Error (Array Label) :=
  (searchKnn s x k).map fun r => r.slots.labels

/-- Searches, then reconstructs each result; an empty slot gives NaN. The slots are written first,
so a label that is not stored, or a failed reconstruction, is reported after that. -/
def searchAndReconstruct (s : σ) (x : Floats) (k : Nat) (out : Slots) (vectors : Floats) :
    Outcome (Slots × Floats) Unit :=
  let d := dimension s
  match checkShape d x k out with
  | .error e => .fail e (out, vectors)
  | .ok nq =>
    let size := Count.mul (Count.mul nq k) d
    if vectors.size ≠ size then .fail (.dimensionMismatch size vectors.size) (out, vectors)
    else
      let found := search s x k out
      match found.answer with
      | .error e => .fail e (found.state, vectors)
      | .ok () =>
        let labels := found.state.labels.toList
        match labels.find? fun l => l ≠ noLabel && !l.isStored (count s) with
        | some label => .fail (.labelOutOfRange label (count s)) (found.state, vectors)
        | none =>
          (Outcome.replace vectors (stageRows (reconstruct s) d size labels)).mapState
            fun vectors => (found.state, vectors)

/-- The difference between `x` and a stored vector. -/
def computeResidual (s : σ) (x : Floats) (label : Label) (residual : Floats) :
    Outcome Floats Unit :=
  let d := dimension s
  if x.size ≠ d then .fail (.dimensionMismatch d x.size) residual
  else if residual.size ≠ d then .fail (.dimensionMismatch d residual.size) residual
  else
    let o := reconstruct s label residual
    match o.answer with
    | .error e => .fail e o.state
    | .ok () => .done (Array.zipWith (· - ·) x o.state)

end Index

end Neighbors
