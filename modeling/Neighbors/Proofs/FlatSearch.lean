import Neighbors.Index.Flat
import Neighbors.Proofs.Rows
import Neighbors.Proofs.TopK

/-!
# Search in a flat index

The row of a query without NaN distances is the beginning of all stored vectors in the order of the
metric, equal distances by label, and then padding (`search_eq_bestFirst`).
-/

namespace Neighbors

namespace Scan

theorem labels_scored (d : Nat) (base : Floats) (score : Floats → Nat → Binary32) :
    (scored d base score).map Candidate.label = (List.range (base.size / d)).map Nat.cast := by
  simp [scored, Function.comp_def]

theorem nodup_labels_scored (d : Nat) (base : Floats) (score : Floats → Nat → Binary32) :
    ((scored d base score).map Candidate.label).Nodup := by
  rw [labels_scored]
  exact List.Nodup.map (fun _ _ h => Int.ofNat_inj.1 h) List.nodup_range

/-- No stored vector is passed over. -/
theorem filter_isLabelled_scored (d : Nat) (base : Floats) (score : Floats → Nat → Binary32) :
    (scored d base score).filter Candidate.isLabelled = scored d base score := by
  refine List.filter_eq_self.2 fun c hc => ?_
  obtain ⟨j, -, rfl⟩ := List.mem_map.1 hc
  simpa [Candidate.isLabelled] using Label.natCast_ne_noLabel j

theorem length_scored (d : Nat) (base : Floats) (score : Floats → Nat → Binary32) :
    (scored d base score).length = base.size / d := by
  simp [scored]

theorem length_rows (d : Nat) (x : Floats) : (rows d x).length = x.size / d := by simp [rows]

variable {metric : Metric} {queries base : Floats} {d k size : Nat}
  {score : Floats → Floats → Nat → Binary32}

theorem best_row_cut {i : Nat} (hi : i < queries.size / d) :
    (best metric queries base d k size score).row k i = .ofCandidates
      (TopK.ofCandidates metric (min k (size - i * k))
        (scored d base (score (rowOf d queries i)))).finish := by
  rw [best, Slots.row_fillRows_cut (fun _ _ => TopK.length_finish_ofCandidates _ _ _)
    (by rwa [length_rows])]
  simp [rows]

theorem best_row {i : Nat} (hi : i < queries.size / d) (hroom : (i + 1) * k ≤ size) :
    (best metric queries base d k size score).row k i = .ofCandidates
      (TopK.ofCandidates metric k (scored d base (score (rowOf d queries i)))).finish := by
  rw [best, Slots.row_fillRows (fun _ _ => TopK.length_finish_ofCandidates _ _ _)
    (by rwa [length_rows]) hroom]
  simp [rows]

theorem best_row_of_isNumber {i : Nat} (hi : i < queries.size / d) (hroom : (i + 1) * k ≤ size)
    (hn : ∀ c ∈ scored d base (score (rowOf d queries i)), c.IsNumber) :
    (best metric queries base d k size score).row k i = .ofCandidates
      ((Candidate.bestFirst metric (scored d base (score (rowOf d queries i)))).take k ++
        List.replicate (k - base.size / d) .padding) := by
  have hfinish := TopK.finish_ofCandidates metric k hn
  rw [filter_isLabelled_scored] at hfinish
  rw [best_row hi hroom, hfinish (.of_nodup (nodup_labels_scored ..)), length_scored]

theorem hasSize_best (hsize : size ≤ queries.size / d * k) :
    (best metric queries base d k size score).HasSize size :=
  Slots.hasSize_fillRows (fun _ _ => TopK.length_finish_ofCandidates _ _ _)
    (by rwa [length_rows])

end Scan

namespace Flat

def candidates (f : Flat) (q : Floats) : List Candidate :=
  (List.range f.count).map fun j => ⟨f.metric.distance q (rowOf f.dimension f.vectors j), j⟩

theorem candidates_eq_scored (f : Flat) (q : Floats) :
    f.candidates q =
      Scan.scored f.dimension f.vectors fun row _ => f.metric.distance q row := rfl

@[simp] theorem length_candidates (f : Flat) (q : Floats) : (f.candidates q).length = f.count := by
  simp [candidates]

theorem search_of_shape (f : Flat) {x : Floats} {k nq : Nat} {out : Slots}
    (h : Index.checkShape f.dimension x k out = .ok nq) :
    Index.search f x k out =
      .done (Scan.nearest f.metric x f.vectors f.dimension k out.distances.size) := by
  show Outcome.replace out (f.search x k out) = _
  rw [search, h]
  rfl

theorem nearest_row (f : Flat) {x : Floats} {k size i : Nat} (hi : i < x.size / f.dimension)
    (hroom : (i + 1) * k ≤ size)
    (hn : ∀ c ∈ f.candidates (rowOf f.dimension x i), c.IsNumber) :
    (Scan.nearest f.metric x f.vectors f.dimension k size).row k i = .ofCandidates
      ((Candidate.bestFirst f.metric (f.candidates (rowOf f.dimension x i))).take k ++
        List.replicate (k - f.count) .padding) :=
  Scan.best_row_of_isNumber hi hroom hn

/-- A search with buffers of the right size succeeds. At each query without a NaN distance it writes
the first `k` stored vectors in the order of the metric, equal distances by label, each with its
distance, and fills the other slots with padding. -/
theorem search_eq_bestFirst (f : Flat) {x : Floats} {k nq : Nat} {out : Slots}
    (h : Index.WellShaped f.dimension x k out nq) :
    ∃ found : Slots, Index.search f x k out = .done found ∧
      found.distances.size = nq * k ∧ found.labels.size = nq * k ∧
      ∀ i < nq, (∀ c ∈ f.candidates (rowOf f.dimension x i), c.IsNumber) →
        found.row k i = .ofCandidates
          ((Candidate.bestFirst f.metric (f.candidates (rowOf f.dimension x i))).take k ++
            List.replicate (k - f.count) .padding) := by
  have hsize : (Scan.nearest f.metric x f.vectors f.dimension k out.distances.size).HasSize
      out.distances.size := Scan.hasSize_best (Index.size_le_of_checkShape h.checkShape)
  rw [h.size.distances] at hsize
  refine ⟨_, search_of_shape f h.checkShape, h.size.distances ▸ hsize.distances,
    h.size.distances ▸ hsize.labels, fun i hi hn => ?_⟩
  exact f.nearest_row (h.eq_div ▸ hi) (h.room hi) hn

/-- Zeros of both signs tie, and the row has more slots than there are vectors. -/
theorem search_eq_bestFirst_zeros :
    let f : Flat := ⟨⟨1, #[.zero, .negZero, .one], by decide, by decide⟩, .innerProduct⟩
    let out : Slots := ⟨.replicate 5 .one, .replicate 5 0⟩
    Index.WellShaped f.dimension #[.one] 5 out 1 ∧
      ∃ found : Slots, Index.search f #[.one] 5 out = .done found ∧
        found.row 5 0 = .ofCandidates
          [⟨.one, 2⟩, ⟨.zero, 0⟩, ⟨.negZero, 1⟩, .padding, .padding] := by
  intro f out
  have hshape : Index.WellShaped f.dimension #[.one] 5 out 1 := by decide
  have hbest : [⟨.one, 2⟩, ⟨.zero, 0⟩, ⟨.negZero, 1⟩] =
      Candidate.bestFirst f.metric (f.candidates (rowOf f.dimension #[.one] 0)) :=
    Candidate.eq_bestFirst (by decide) (by decide) (by decide)
  obtain ⟨found, hfound, -, -, hrows⟩ := search_eq_bestFirst f hshape
  have hrow := hrows 0 Nat.one_pos (by decide)
  rw [← hbest] at hrow
  exact ⟨hshape, found, hfound, hrow.trans (by decide)⟩

end Flat

end Neighbors
