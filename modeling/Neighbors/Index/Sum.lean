import Neighbors.Index.Refined
import Neighbors.Index.Shifted
import Neighbors.Index.SortedAxis
import Neighbors.Index.Grid

/-!
# A choice of indexes

One of two indexes is an index; every operation goes to the one that is there. `Stock` is the
choice of all indexes that keep vectors themselves.
-/

namespace Neighbors

instance {α β : Type} [Index α] [Index β] : Index (α ⊕ β) where
  dimension := Sum.elim Index.dimension Index.dimension
  count := Sum.elim Index.count Index.count
  isTrained := Sum.elim Index.isTrained Index.isTrained
  metric := Sum.elim Index.metric Index.metric
  train s x := s.elim
    (fun a => (Index.train a x).mapState .inl) (fun b => (Index.train b x).mapState .inr)
  add s x := s.elim
    (fun a => (Index.add a x).mapState .inl) (fun b => (Index.add b x).mapState .inr)
  search := Sum.elim Index.search Index.search
  reset := Sum.map Index.reset Index.reset
  addWithIds s x ids := s.elim
    (fun a => (Index.addWithIds a x ids).mapState .inl)
    (fun b => (Index.addWithIds b x ids).mapState .inr)
  rangeSearch := Sum.elim Index.rangeSearch Index.rangeSearch
  removeIds s selector := s.elim
    (fun a => (Index.removeIds a selector).mapState .inl)
    (fun b => (Index.removeIds b selector).mapState .inr)
  reconstruct := Sum.elim Index.reconstruct Index.reconstruct
  reconstructN := Sum.elim Index.reconstructN Index.reconstructN

/-- A flat, shifted or sorted index. -/
abbrev Stock := Flat ⊕ Shifted ⊕ SortedAxis

end Neighbors
