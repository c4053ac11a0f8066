import Neighbors.Demo.Options
import Neighbors.Demo.Random
import Neighbors.Index.Sum

/-!
# The demonstration

Builds an index over random vectors, lets the first of them find themselves, and answers random
queries. A `Report` is what was printed and the error that ended it, if there was one.
-/

namespace Neighbors.Demo

inductive Failure where
  | index (error : Error)
  /-- The sorted index has one dimension. -/
  | dimension (actual : Nat)
  deriving DecidableEq, Repr

def Failure.message : Failure → String
  | index .allocation =>
    Error.allocation.message ++ "\n\nCaused by:\n    memory allocation failed because the " ++
      "computed capacity exceeded the collection's maximum"
  | index error => error.message
  | dimension actual => s!"the sorted-axis index requires --dim 1, got {actual}"

structure Report where
  lines : List String
  failure : Option Failure

/-- The index that the options ask for: a plain one, or one refinement over a flat one. -/
inductive Built where
  | stock (index : Stock)
  | refined (index : Refined Flat)

def build (o : Options) : Except Failure Built :=
  match o.kind with
  | .flat =>
    match Flat.empty o.dimension o.metric with
    | .ok flat => .ok (.stock (.inl flat))
    | .error e => .error (.index e)
  | .refine =>
    match Flat.empty o.dimension o.metric >>= (Refined.ofBase · ⟨o.factor⟩) with
    | .ok refined => .ok (.refined refined)
    | .error e => .error (.index e)
  | .sortedAxis =>
    if o.dimension ≠ 1 then .error (.dimension o.dimension)
    else .ok (.stock (.inr (.inr (.empty {}))))

def alignRight (width : Nat) (text : String) : String :=
  String.ofList (List.replicate (width - text.length) ' ') ++ text

def labelLine (s : Slots) : String :=
  " ".intercalate (s.labels.toList.map fun l => alignRight 5 (toString l))

def distanceLine (s : Slots) : String :=
  " ".intercalate (s.distances.toList.map fun d => alignRight 7 (d.fixed 4))

/-- Rows `first, …, first + n - 1` of the results, one line each. -/
def resultLines (line : Slots → String) (r : Index.Results) (first n : Nat) : List String :=
  (List.range n).map fun i => line (r.row (first + i))

def shown (n : Nat) : Nat := min n 5

/-- The run of an empty index over a database and queries. -/
def runIndex {σ : Type} [Index σ] (index : σ) (o : Options) (database queries : Floats) : Report :=
  let start := ["is_trained = " ++ toString (Index.isTrained index)]
  let trained := Index.train index database
  match trained.answer with
  | .error e => ⟨start, some (.index e)⟩
  | .ok () =>
    let added := Index.add trained.state database
    match added.answer with
    | .error e => ⟨start, some (.index e)⟩
    | .ok () =>
      let start := start ++ ["ntotal = " ++ toString (Index.count added.state)]
      let checked := shown o.databaseSize
      match Index.searchKnn added.state (database.extract 0 (checked * o.dimension)) o.k with
      | .error e => ⟨start, some (.index e)⟩
      | .ok check =>
        let start := start ++ "I=" :: resultLines labelLine check 0 checked ++
          "D=" :: resultLines distanceLine check 0 checked
        match Index.searchKnn added.state queries o.k with
        | .error e => ⟨start, some (.index e)⟩
        | .ok results =>
          let n := shown o.queryCount
          ⟨start ++ "I (5 first results)=" :: resultLines labelLine results 0 n ++
            "I (5 last results)=" :: resultLines labelLine results (o.queryCount - n) n, none⟩

/-- The run with numbers from any source: as many as the database and the queries need. -/
def runWith (numbers : Nat → Floats) (o : Options) : Report :=
  match build o with
  | .error failure => ⟨[], some failure⟩
  | .ok built =>
    let split := o.databaseSize * o.dimension
    let stop := split + o.queryCount * o.dimension
    let xs := numbers stop
    let database := Random.spread o.dimension (xs.extract 0 split)
    let queries := Random.spread o.dimension (xs.extract split stop)
    match built with
    | .stock index => runIndex index o database queries
    | .refined index => runIndex index o database queries

def run (o : Options) : Report := runWith (Random.numbers (UInt64.ofNat o.seed)) o

/-- The exit code, standard output and standard error of a command line. Nothing is known of the
texts for help and for a wrong command line. -/
inductive Exit where
  | stopped (code : Nat)
  | finished (code : Nat) (output errors : String)

def Report.exit (r : Report) : Exit :=
  let output := String.join (r.lines.map (· ++ "\n"))
  match r.failure with
  | none => .finished 0 output ""
  | some failure => .finished 1 output ("Error: " ++ failure.message ++ "\n")

def runArguments (arguments : List String) : Exit :=
  match Options.read arguments with
  | .ok options => (run options).exit
  | .error .help => .stopped 0
  | .error .invalid => .stopped 2

end Neighbors.Demo
