import Neighbors.Json.Reader
import Neighbors.Index.Refined
import Neighbors.Index.SortedAxis

/-!
# Settings as JSON

The settings of the indexes, and the metric, as JSON text. Settings are an object or an array of
the fields in order; a missing field has its default. In an object other fields are passed over,
but a repeated field is refused. A metric is its name or an object of its name and `null`.
-/

namespace Neighbors

namespace Json

/-- The values that the fields `names` have in a value. Nothing, if the value has no fields, a
field twice, or more items than there are names. -/
def fields? (names : List String) : Json → Option (List (Option Json))
  | .object members => do
    if members.any fun (key, _) => key.isNone then none
    names.mapM fun name =>
      match members.filter fun (key, _) => key == some name with
      | [] => some none
      | [(_, value)] => some (some value)
      | _ => none
  | .array items =>
    if names.length < items.length then none
    else some (items.map some ++ List.replicate (names.length - items.length) none)
  | _ => none

def toBool? : Json → Option Bool
  | .bool value => some value
  | _ => none

def toCount? : Json → Option Nat
  | .number literal => literal.toCount?
  | _ => none

def toBinary32? : Json → Option Binary32
  | .number literal => literal.toBinary32?
  | _ => none

/-- The value of a field, read by `read?`, or its default. -/
def fieldD {α : Type} (read? : Json → Option α) (default : α) : Option Json → Option α
  | none => some default
  | some value => read? value

end Json

namespace RefineSettings

def ofJson? (json : Json) : Option RefineSettings := do
  match ← json.fields? ["k_factor"] with
  | [factor] => return ⟨← Json.fieldD Json.toBinary32? .one factor⟩
  | _ => none

def read? (text : String) : Option RefineSettings := Json.read? text >>= ofJson?

def toJson (s : RefineSettings) : String := "\x7b\"k_factor\":" ++ s.factor.json ++ "\x7d"

end RefineSettings

namespace SortedAxisSettings

def ofJson? (json : Json) : Option SortedAxisSettings := do
  let default : SortedAxisSettings := {}
  match ← json.fields? ["continuous_update", "parallel_sort_threshold"] with
  | [update, threshold] =>
    return ⟨← Json.fieldD Json.toBool? default.continuousUpdate update,
      ← Json.fieldD Json.toCount? default.parallelSortThreshold threshold⟩
  | _ => none

def read? (text : String) : Option SortedAxisSettings := Json.read? text >>= ofJson?

def toJson (s : SortedAxisSettings) : String :=
  "\x7b\"continuous_update\":" ++ toString s.continuousUpdate ++
    ",\"parallel_sort_threshold\":" ++ toString s.parallelSortThreshold ++ "\x7d"

end SortedAxisSettings

namespace Metric

def name : Metric → String
  | l2 => "L2"
  | innerProduct => "InnerProduct"

def ofName? : String → Option Metric
  | "L2" => some l2
  | "InnerProduct" => some innerProduct
  | _ => none

def ofJson? : Json → Option Metric
  | .string (some text) => ofName? text
  | .object [(some key, .null)] => ofName? key
  | _ => none

def read? (text : String) : Option Metric := Json.read? text >>= ofJson?

def toJson (m : Metric) : String := "\"" ++ m.name ++ "\""

end Metric

end Neighbors
