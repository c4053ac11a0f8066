import Neighbors.Index.Sum
import Neighbors.Proofs.FlatSearch
import Neighbors.Proofs.Refined.Search
import Neighbors.Proofs.SortedAxis.Coverage

/-!
# Buffers are filled

A search that succeeds was given a whole number of queries and the slots for them, and leaves as
many slots. A vector that was reconstructed is as long as its buffer.
-/

namespace Neighbors

theorem Outcome.eq_ok_of_replace_done {σ : Type} {old new : σ} {r : Except Error σ}
    (h : replace old r = done new) : r = .ok new := by
  cases r with
  | error e => cases h
  | ok state =>
    cases h
    rfl

namespace Index

/-- What a success leaves in the buffers has their size. -/
structure FillsBuffers {σ : Type} [Index σ] (s : σ) : Prop where
  dimension_pos : 0 < dimension s
  search : ∀ {x k out found}, Index.search s x k out = .done found →
    ∃ nq, checkShape (dimension s) x k out = .ok nq ∧ found.HasSize (Count.mul nq k)
  reconstruct : ∀ {label out row}, Index.reconstruct s label out = .done row → row.size = out.size

end Index

open Index

theorem Scan.hasSize_best_of_checkShape {metric : Metric} {queries base : Floats} {d k nq : Nat}
    {out : Slots} {score : Floats → Floats → Nat → Binary32}
    (h : checkShape d queries k out = .ok nq) :
    (best metric queries base d k out.distances.size score).HasSize (Count.mul nq k) := by
  rw [← (checkShape_eq_ok_iff.1 h).2.distances]
  exact hasSize_best (size_le_of_checkShape h)

theorem Storage.size_of_rows? {s : Storage} {first n : Nat} {rows : Floats}
    (h : s.rows? first n = some rows) : rows.size = n * s.dimension := by
  simp only [rows?, Option.bind_eq_bind, Option.bind_eq_some_iff, Count.mul?, Count.add?,
    Option.ite_none_right_eq_some, Option.some.injEq] at h
  obtain ⟨start, ⟨-, rfl⟩, last, ⟨-, rfl⟩, stop, ⟨-, rfl⟩, ⟨-, hstop⟩, rfl⟩ := h
  rw [Array.size_extract, Nat.min_eq_left hstop, Nat.add_mul, Nat.add_sub_cancel_left]

namespace Flat

variable (f : Flat)

theorem size_of_reconstruct {label : Label} {out row : Floats}
    (h : Outcome.replace out (f.reconstruct label out) = .done row) : row.size = out.size := by
  have hok := Outcome.eq_ok_of_replace_done h
  unfold reconstruct at hok
  split at hok
  · cases hok
  · split at hok
    · cases hok
    · next hsize =>
      obtain rfl := Except.ok.inj hok
      cases hrow : f.storage.row? label.toNat with
      | none => rfl
      | some row =>
        have hrow := Storage.size_of_rows? hrow
        rw [Nat.one_mul] at hrow
        exact hrow.trans (not_not.1 hsize).symm

theorem fillsBuffers : FillsBuffers f where
  dimension_pos := f.storage.dimension_pos
  search h := by
    obtain ⟨nq, hshape, rfl⟩ := map_eq_ok_iff.1 (Outcome.eq_ok_of_replace_done h)
    exact ⟨nq, hshape, Scan.hasSize_best_of_checkShape hshape⟩
  reconstruct := f.size_of_reconstruct

end Flat

theorem Shifted.search_of_done {s : Shifted} {x : Floats} {k : Nat} {out found : Slots}
    (h : Index.search s x k out = .done found) : s.shift.size = s.storage.count ∧
      ∃ nq, checkShape s.storage.dimension x k out = .ok nq ∧
        found = Scan.nearestShifted x s.storage.data s.shift s.storage.dimension k
          out.distances.size := by
  have hok : s.search x k out = .ok found := Outcome.eq_ok_of_replace_done h
  unfold Shifted.search at hok
  split at hok
  · cases hok
  · next hshift =>
    obtain ⟨nq, hshape, hfound⟩ := map_eq_ok_iff.1 hok
    exact ⟨not_not.1 hshift, nq, hshape, hfound.symm⟩

theorem Shifted.fillsBuffers (s : Shifted) : FillsBuffers s where
  dimension_pos := s.storage.dimension_pos
  search h := by
    obtain ⟨-, nq, hshape, rfl⟩ := search_of_done h
    exact ⟨nq, hshape, Scan.hasSize_best_of_checkShape hshape⟩
  reconstruct := s.flat.size_of_reconstruct

theorem SortedAxis.hasSize_rows (s : SortedAxis) {x : Floats} {k size : Nat}
    (hsize : size ≤ x.size * k) : (Slots.fillRows size k x.toList s.searchRow).HasSize size :=
  Slots.hasSize_fillRows (fun _ _ => length_searchRow s _ _) (by rwa [Array.length_toList])

theorem SortedAxis.fillsBuffers (s : SortedAxis) : FillsBuffers s where
  dimension_pos := Nat.one_pos
  search {x k out found} h := by
    have hanswer := congrArg Outcome.answer h
    obtain ⟨nq, hshape⟩ := checkShape_of_search hanswer
    have hle := size_le_of_checkShape hshape
    rw [Nat.div_one] at hle
    rw [search_eq_done hanswer] at h
    cases h
    exact ⟨nq, hshape, (checkShape_eq_ok_iff.1 hshape).2.distances ▸ s.hasSize_rows hle⟩
  reconstruct := s.flat.size_of_reconstruct

theorem Stock.fillsBuffers (b : Stock) : FillsBuffers b := by
  obtain f | s | s := b
  · have hf := f.fillsBuffers
    exact ⟨hf.dimension_pos, hf.search, hf.reconstruct⟩
  · have hs := s.fillsBuffers
    exact ⟨hs.dimension_pos, hs.search, hs.reconstruct⟩
  · have hs := s.fillsBuffers
    exact ⟨hs.dimension_pos, hs.search, hs.reconstruct⟩

theorem Refined.fillsBuffers {β : Type} [Index β] (r : Refined β) : FillsBuffers r where
  dimension_pos := r.exact.storage.dimension_pos
  search {x k out found} h := by
    obtain ⟨-, nq, hshape, ⟨-, hdone⟩ | ⟨blank, proposed, -, -, -, -, hdone⟩⟩ :=
      search_ok (congrArg Outcome.answer h)
    · rw [h] at hdone
      cases hdone
      exact ⟨nq, hshape, (checkShape_eq_ok_iff.1 hshape).2⟩
    · rw [h] at hdone
      cases hdone
      exact ⟨nq, hshape, hasSize_rank (checkShape_eq_ok_iff.1 hshape).2 (Count.mul_le nq k)⟩
  reconstruct := r.exact.size_of_reconstruct

theorem Tower.fillsBuffers {n : Nat} (t : Tower Stock n) : FillsBuffers t := by
  cases n with
  | zero => exact Stock.fillsBuffers t
  | succ n => exact Refined.fillsBuffers (β := Tower Stock n) t

end Neighbors
