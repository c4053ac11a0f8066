import Neighbors.Metric
import Neighbors.Decimal.Read

/-!
# Options of the demonstration

The command line is read from left to right. Each option may stand once, and its value follows it
in the next argument, after an equals sign, or, for one letter, at once. The first help option ends
the reading, unless there was an error before it.
-/

namespace Neighbors.Demo

inductive Kind where
  | flat
  | refine
  | sortedAxis
  deriving DecidableEq, Repr

structure Options where
  kind : Kind := .flat
  metric : Metric := .l2
  dimension : Nat := 64
  databaseSize : Nat := 100000
  queryCount : Nat := 10000
  k : Nat := 4
  factor : Binary32 := .one
  seed : Nat := 1234

inductive Name where
  | index
  | metric
  | dimension
  | databaseSize
  | queryCount
  | k
  | factor
  | seed
  | logFormat
  deriving DecidableEq, Repr

inductive Flag where
  | option (name : Name)
  | help

inductive Stop where
  | invalid
  | help
  deriving DecidableEq, Repr

def Flag.ofLong? : String → Option Flag
  | "index" => some (.option .index)
  | "metric" => some (.option .metric)
  | "dim" => some (.option .dimension)
  | "nb" => some (.option .databaseSize)
  | "nq" => some (.option .queryCount)
  | "k" => some (.option .k)
  | "k-factor" => some (.option .factor)
  | "seed" => some (.option .seed)
  | "log-format" => some (.option .logFormat)
  | "help" => some .help
  | _ => none

def Flag.ofShort? : Char → Option Flag
  | 'd' => some (.option .dimension)
  | 'k' => some (.option .k)
  | 'h' => some .help
  | _ => none

namespace Options

/-- The options with one value set. Nothing, if the value does not fit the option. -/
def set? (o : Options) (name : Name) (value : String) : Option Options :=
  match name with
  | .index =>
    match value with
    | "flat" => some { o with kind := .flat }
    | "refine" => some { o with kind := .refine }
    | "sorted-axis" => some { o with kind := .sortedAxis }
    | _ => none
  | .metric =>
    match value with
    | "l2" => some { o with metric := .l2 }
    | "inner-product" => some { o with metric := .innerProduct }
    | _ => none
  | .dimension => (Count.ofText? value).map fun n => { o with dimension := n }
  | .databaseSize => (Count.ofText? value).map fun n => { o with databaseSize := n }
  | .queryCount => (Count.ofText? value).map fun n => { o with queryCount := n }
  | .k => (Count.ofText? value).map fun n => { o with k := n }
  | .factor => (Binary32.ofText? value).map fun x => { o with factor := x }
  | .seed => (Count.ofText? value).map fun n => { o with seed := n }
  | .logFormat => if value = "text" ∨ value = "json" then some o else none

/-- One argument: a flag with or without a value of its own, or something else. -/
inductive Argument where
  | flag (flag : Flag) (value : Option String)
  | endOfFlags
  | other

/-- Splits at the first equals sign. -/
def splitValue (cs : List Char) : List Char × Option String :=
  match cs.dropWhile (· ≠ '=') with
  | [] => (cs, none)
  | _ :: value => (cs.takeWhile (· ≠ '='), some (String.ofList value))

/-- The value written at once behind a letter; an equals sign is left out. -/
def attached : List Char → Option String
  | [] => none
  | '=' :: cs => some (String.ofList cs)
  | cs => some (String.ofList cs)

def Argument.ofText (text : String) : Argument :=
  match text.toList with
  | ['-', '-'] => endOfFlags
  | '-' :: '-' :: cs =>
    let (long, value) := splitValue cs
    match Flag.ofLong? (String.ofList long) with
    | some f => flag f value
    | none => other
  | '-' :: c :: cs =>
    match Flag.ofShort? c with
    | some .help => flag .help none
    | some f => flag f (attached cs)
    | none => other
  | _ => other

/-- Reads arguments; `seen` are the options that stand before. -/
def readFrom (o : Options) (seen : List Name) : List String → Except Stop Options
  | [] => .ok o
  | text :: rest =>
    match Argument.ofText text with
    | .other => .error .invalid
    | .endOfFlags => if rest.isEmpty then .ok o else .error .invalid
    | .flag .help none => .error .help
    | .flag .help (some _) => .error .invalid
    | .flag (.option name) (some value) =>
      if name ∈ seen then .error .invalid
      else match o.set? name value with
        | some o => readFrom o (name :: seen) rest
        | none => .error .invalid
    | .flag (.option name) none =>
      match rest with
      | [] => .error .invalid
      | value :: rest =>
        if name ∈ seen ∨ value.toList.head? = some '-' then .error .invalid
        else match o.set? name value with
          | some o => readFrom o (name :: seen) rest
          | none => .error .invalid

def read (arguments : List String) : Except Stop Options := readFrom {} [] arguments

end Options

end Neighbors.Demo
