import Neighbors.Count
import Neighbors.Decimal.Text

/-!
# Errors and outcomes

`Error` lists why a call can fail. An `Outcome` is what a call answers together with the state it
leaves behind, on failure as well as on success, so that a law can say which calls that fail leave
their index and their output buffers alone.
-/

namespace Neighbors

/-- Operations that an index may lack. -/
inductive Operation where
  | addWithIds
  | rangeSearch
  | removeIds
  | reconstruct
  deriving DecidableEq, Repr

def Operation.name : Operation → String
  | addWithIds => "add_with_ids"
  | rangeSearch => "range_search"
  | removeIds => "remove_ids"
  | reconstruct => "reconstruct"

inductive Error where
  | dimensionMismatch (expected actual : Nat)
  | invalidDimension
  | notTrained
  | permutationStale (entries count : Nat)
  | shiftSizeMismatch (entries count : Nat)
  | unsupported (operation : Operation)
  | baseNotEmpty (count : Nat)
  | labelOutOfRange (label : Label) (count : Nat)
  | invalidFactor (factor : Binary32)
  | allocation
  deriving DecidableEq, Repr

def Error.message : Error → String
  | dimensionMismatch expected actual =>
    s!"Dimension mismatch: expected {expected}, got {actual}"
  | invalidDimension => "Invalid dimension: vectors must have at least one component"
  | notTrained => "Index is not trained"
  | permutationStale entries count =>
    s!"Permutation is stale ({entries} entries for {count} vectors): " ++
      "call update_permutation before search"
  | shiftSizeMismatch entries count =>
    s!"Shift array has {entries} entries but index holds {count} vectors"
  | unsupported operation => "Operation not supported by this index: " ++ operation.name
  | baseNotEmpty count => s!"Base index must be empty at construction, holds {count} vectors"
  | labelOutOfRange label count =>
    s!"Label {label} out of range for index holding {count} vectors"
  | invalidFactor factor =>
    "Invalid parameter: k_factor must be a finite value >= 1, got " ++ factor.plain
  | allocation =>
    "Allocation failed: memory allocation failed because the computed capacity exceeded " ++
      "the collection's maximum"

/-- What a call answers, and the state it leaves. -/
structure Outcome (σ α : Type) where
  answer : Except Error α
  state : σ

namespace Outcome

variable {σ τ α : Type}

def done (state : σ) : Outcome σ Unit := ⟨.ok (), state⟩

def fail (error : Error) (state : σ) : Outcome σ α := ⟨.error error, state⟩

/-- The new state if there is one; else `old` stays. -/
def replace (old : σ) : Except Error σ → Outcome σ Unit
  | .ok state => done state
  | .error error => fail error old

/-- The same answer, seen from a larger state. -/
def mapState (f : σ → τ) (o : Outcome σ α) : Outcome τ α := ⟨o.answer, f o.state⟩

end Outcome

end Neighbors
