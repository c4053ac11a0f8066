import Neighbors.Index.Flat

/-!
# The grid index

A `Grid` index is a lossy base for refinement: it stores each component rounded to a multiple of
`step`. It can be told to need training, to have no reconstruction, and to put a label of its own
into the last slot of every search.
-/

namespace Neighbors

structure Grid where
  flat : Flat
  step : Binary32
  trained : Bool
  reconstructs : Bool
  strayLabel : Option Label

namespace Grid

/-- The multiple of `step` nearest to `x`; `x` itself if the step is zero. -/
def snap (step x : Binary32) : Binary32 :=
  if step.eq .zero then x else (x / step).round * step

/-- Puts a label into the last slot, if there is one. -/
def withLast (label : Label) (out : Slots) : Slots :=
  { out with labels := out.labels.setIfInBounds (out.labels.size - 1) label }

def search (g : Grid) (x : Floats) (k : Nat) (out : Slots) : Except Error Slots :=
  (g.flat.search x k out).map fun found =>
    match g.strayLabel with
    | some label => withLast label found
    | none => found

instance : Index Grid where
  dimension g := g.flat.dimension
  count g := g.flat.count
  isTrained := trained
  metric g := g.flat.metric
  train g _ := .done { g with trained := true }
  add g x := .replace g ((g.flat.add (x.map (snap g.step))).map fun flat => { g with flat })
  search g x k out := .replace out (g.search x k out)
  reset g := { g with flat := Index.reset g.flat }
  reconstruct g label out :=
    if g.reconstructs then Index.reconstruct g.flat label out
    else .fail (.unsupported .reconstruct) out

end Grid

end Neighbors
