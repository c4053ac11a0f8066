import Neighbors.Count
import Std.Data.HashSet

/-!
# Selectors

A `Selector` picks the stored vectors to remove, by their labels.
-/

namespace Neighbors

structure Selector where
  isMember : Label → Bool

structure LabelSet where
  labels : Std.HashSet Label

namespace LabelSet

def empty : LabelSet := ⟨∅⟩

def ofList (labels : List Label) : LabelSet := ⟨.ofList labels⟩

def size (s : LabelSet) : Nat := s.labels.size

def isEmpty (s : LabelSet) : Bool := s.labels.isEmpty

def contains (s : LabelSet) (label : Label) : Bool := s.labels.contains label

end LabelSet

namespace Selector

/-- The labels from `first` to below `stop`. -/
def range (first stop : Label) : Selector := ⟨fun l => decide (first ≤ l) && decide (l < stop)⟩

def batch (set : LabelSet) : Selector := ⟨set.contains⟩

/-- The labels that `s` does not pick. -/
def not (s : Selector) : Selector := ⟨fun l => !s.isMember l⟩

end Selector

end Neighbors
