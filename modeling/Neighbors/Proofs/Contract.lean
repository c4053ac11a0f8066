import Neighbors.Index.Sum
import Neighbors.Proofs.Compaction
import Neighbors.Proofs.Found

/-!
# The contract of an index

What a refinement relies on in its base. `Index.Updates` is about the updates of one state: the
vectors have one dimension and one metric for good, a batch is taken whole or not at all, and only a
training that succeeds touches the flag. `Index.Lawful` is about a set of states that updates do not
lead out of, and adds that a search names stored vectors only, given slots that name no others. All
indexes of the library keep to the former, the grid with a label of its own included.
-/

namespace Neighbors

namespace Index

/-- Vectors of the same dimension, ranked by the same metric. -/
structure SameSpace {σ τ : Type} [Index σ] [Index τ] (s : σ) (t : τ) : Prop where
  dimension : dimension t = dimension s
  metric : metric t = metric s

theorem SameSpace.refl {σ : Type} [Index σ] (s : σ) : SameSpace s s := ⟨rfl, rfl⟩

theorem SameSpace.trans {σ τ υ : Type} [Index σ] [Index τ] [Index υ] {s : σ} {t : τ} {u : υ}
    (h : SameSpace s t) (h' : SameSpace t u) : SameSpace s u :=
  ⟨h'.dimension.trans h.dimension, h'.metric.trans h.metric⟩

theorem SameSpace.symm {σ τ : Type} [Index σ] [Index τ] {s : σ} {t : τ} (h : SameSpace s t) :
    SameSpace t s := ⟨h.dimension.symm, h.metric.symm⟩

variable {σ : Type} [Index σ]

/-- A training stores nothing, and sets the flag if it succeeds. -/
structure Trains (s : σ) (o : Outcome σ Unit) : Prop where
  space : SameSpace s o.state
  count : count o.state = count s
  isTrained : isTrained o.state = (o.answer.isOk || isTrained s)

/-- An addition of whole rows stores all of them, and one that fails changes nothing. -/
structure Adds (s : σ) (x : Floats) (o : Outcome σ Unit) : Prop where
  space : SameSpace s o.state
  count : ∀ n, rowCount (dimension s) x = .ok n → o.answer = .ok () → count o.state = count s + n
  isTrained : isTrained o.state = isTrained s
  atomic : o.Atomic s

structure Resets (s t : σ) : Prop where
  space : SameSpace s t
  count : count t = 0
  isTrained : isTrained t = isTrained s

structure Updates (s : σ) : Prop where
  train : ∀ x, Trains s (train s x)
  add : ∀ x, Adds s x (add s x)
  reset : Resets s (reset s)

/-- States of an index that updates do not lead out of, and in which it keeps to its contract. -/
structure Lawful (good : σ → Prop) : Prop where
  train : ∀ s x, good s → good (Index.train s x).state
  add : ∀ s x, good s → good (Index.add s x).state
  reset : ∀ s, good s → good (Index.reset s)
  updates : ∀ s, good s → Updates s
  found : ∀ s x k out, good s → (∀ l ∈ out.labels, l.Proposable (count s)) →
    (Index.search s x k out).answer = .ok () →
    ∀ l ∈ (Index.search s x k out).state.labels, l.Proposable (count s)

/-! ## A choice of indexes -/

variable {α β : Type} [Index α] [Index β]

theorem Updates.inl {a : α} (h : Updates a) : Updates (Sum.inl a : α ⊕ β) where
  train x :=
    have o := h.train x
    ⟨⟨o.space.dimension, o.space.metric⟩, o.count, o.isTrained⟩
  add x :=
    have o := h.add x
    ⟨⟨o.space.dimension, o.space.metric⟩, o.count, o.isTrained,
      o.atomic.mapState (Sum.inl : α → α ⊕ β)⟩
  reset := ⟨⟨h.reset.space.dimension, h.reset.space.metric⟩, h.reset.count, h.reset.isTrained⟩

theorem Updates.inr {b : β} (h : Updates b) : Updates (Sum.inr b : α ⊕ β) where
  train x :=
    have o := h.train x
    ⟨⟨o.space.dimension, o.space.metric⟩, o.count, o.isTrained⟩
  add x :=
    have o := h.add x
    ⟨⟨o.space.dimension, o.space.metric⟩, o.count, o.isTrained,
      o.atomic.mapState (Sum.inr : β → α ⊕ β)⟩
  reset := ⟨⟨h.reset.space.dimension, h.reset.space.metric⟩, h.reset.count, h.reset.isTrained⟩

end Index

theorem Outcome.state_replace_same {σ α : Type} (old : σ) (r : Except Error α) :
    (replace old (r.map fun _ => old)).state = old := by
  cases r <;> rfl

namespace Storage

variable {s t : Storage} {x : Floats}

theorem count_append {n : Nat} (h : s.append x = .ok t) (hn : rowCount s.dimension x = .ok n) :
    t.count = s.count + n := by
  have hlen := congrArg List.length (toList_append h)
  rw [List.length_append, length_toList, length_toList, Scan.length_rows] at hlen
  rw [hlen, (rowCount_eq_ok_iff.1 hn).2.2]

theorem count_clear (s : Storage) : s.clear.count = 0 := Nat.zero_div _

end Storage

open Index Outcome

/-! ## The indexes -/

section

variable {σ : Type} [Index σ] {s : σ}

theorem Index.Trains.of_same {o : Outcome σ Unit} (h : o.state = s)
    (ht : Index.isTrained s = true) : Trains s o where
  space := h ▸ .refl s
  count := congrArg Index.count h
  isTrained := by rw [h, ht, Bool.or_true]

/-- An index around a storage that appends its batches to it, perhaps changed. -/
theorem Index.Updates.of_storage (storage : Storage) (put : Storage → σ) (batch : Floats → Floats)
    (hput : ∀ t : Storage, dimension (put t) = t.dimension ∧ count (put t) = t.count ∧
      metric (put t) = metric (put storage) ∧ isTrained (put t) = isTrained (put storage))
    (hbatch : ∀ x, (batch x).size = x.size)
    (hadd : ∀ x, Index.add (put storage) x =
      .replace (put storage) ((storage.append (batch x)).map put))
    (hreset : Index.reset (put storage) = put storage.clear)
    (htrain : ∀ x, Trains (put storage) (Index.train (put storage) x)) :
    Updates (put storage) where
  train := htrain
  add x := by
    obtain ⟨hdim, hcount, -, -⟩ := hput storage
    rw [hadd]
    cases happend : storage.append (batch x) with
    | error e => exact ⟨.refl _, nofun, rfl, atomic_fail e _⟩
    | ok t =>
      obtain ⟨hdim', hcount', hmetric, htrained⟩ := hput t
      have hspace : dimension (put t) = dimension (put storage) := by
        rw [hdim', hdim, (Storage.append_eq_ok happend).1]
      refine ⟨⟨hspace, hmetric⟩, fun n hn _ => ?_, htrained, atomic_of_ok rfl⟩
      have hrows : rowCount storage.dimension (batch x) = .ok n := by
        rw [rowCount_eq_ok_iff, hbatch, ← rowCount_eq_ok_iff, ← hdim]
        exact hn
      show count (put t) = _
      rw [hcount', hcount, Storage.count_append happend hrows]
  reset := by
    obtain ⟨hdim, hcount, hmetric, htrained⟩ := hput storage.clear
    rw [hreset]
    exact ⟨⟨hdim.trans (hput storage).1.symm, hmetric⟩, hcount.trans storage.count_clear, htrained⟩

end

theorem Flat.updates (f : Flat) : Updates f := by
  refine .of_storage f.storage (fun storage => { f with storage }) id
    (fun _ => ⟨rfl, rfl, rfl, rfl⟩) (fun _ => rfl) (fun _ => rfl) rfl fun x => ?_
  exact .of_same (state_replace_same f (rowCount f.dimension x)) rfl

theorem Shifted.updates (s : Shifted) : Updates s := by
  refine .of_storage s.storage (fun storage => { s with storage }) id
    (fun _ => ⟨rfl, rfl, rfl, rfl⟩) (fun _ => rfl) (fun _ => rfl) rfl fun x => ?_
  exact .of_same (state_replace_same s (rowCount s.storage.dimension x)) rfl

theorem SortedAxis.count_add (s : SortedAxis) (x : Floats) :
    (s.add x).count = s.count + x.size := by
  unfold SortedAxis.add updateIfContinuous
  split <;> exact Array.size_append

theorem SortedAxis.updates (s : SortedAxis) : Updates s where
  train _ := .of_same (state_replace_same s _) rfl
  add x := by
    refine ⟨⟨rfl, rfl⟩, fun n hn _ => ?_, rfl, atomic_replace s _⟩
    cases (rowCount_one x).symm.trans hn
    rw [add_state]
    exact s.count_add x
  reset := ⟨⟨rfl, rfl⟩, rfl, rfl⟩

theorem Stock.updates (b : Stock) : Updates b := by
  obtain f | s | s := b
  · exact f.updates.inl
  · exact s.updates.inl.inr
  · exact s.updates.inr.inr

/-- Whatever label a grid puts into its last slot, its updates keep to the contract. -/
theorem Grid.updates (g : Grid) : Updates g := by
  refine .of_storage g.flat.storage (fun storage => { g with flat := { g.flat with storage } })
    (fun x => x.map (snap g.step)) (fun _ => ⟨rfl, rfl, rfl, rfl⟩) (fun _ => Array.size_map)
    (fun x => ?_) rfl (fun _ => ⟨⟨rfl, rfl⟩, rfl, rfl⟩)
  show Outcome.replace g _ = _
  unfold Flat.add
  cases g.flat.storage.append (x.map (snap g.step)) <;> rfl

end Neighbors
