import Neighbors.Proofs.Binary32.Squares
import Neighbors.Proofs.Listed

/-!
# Search in a shifted index

A search asks for one shift for each stored vector and nothing else (`Shifted.search_of_shape`). A
row without NaN scores is the beginning of all stored vectors in the order of their scores, which
may be negative or infinite, equal scores by label. Zeros of both signs shift nothing, so that an
index that holds no other shifts searches as the flat one does, bit for bit.
-/

namespace Neighbors

open Index

/-- Scores that agree on every pair of a query and a row have the same best rows. -/
theorem Scan.best_congr {metric : Metric} {queries base : Floats} {d k size : Nat}
    {score score' : Floats → Floats → Nat → Binary32}
    (h : ∀ i < queries.size / d, ∀ j < base.size / d,
      score (rowOf d queries i) (rowOf d base j) j =
        score' (rowOf d queries i) (rowOf d base j) j) :
    best metric queries base d k size score = best metric queries base d k size score' := by
  have hscored : ∀ q ∈ rows d queries, scored d base (score q) = scored d base (score' q) := by
    intro q hq
    obtain ⟨i, hi, rfl⟩ := List.mem_map.1 hq
    refine List.map_congr_left fun j hj => ?_
    rw [h i (List.mem_range.1 hi) j (List.mem_range.1 hj)]
  exact Slots.fillRows_congr fun q hq room => by rw [hscored q hq]

namespace Shifted

variable (s : Shifted)

def candidates (q : Floats) : List Candidate :=
  (List.range s.storage.count).map fun (j : Nat) => ⟨s.score q j, j⟩

theorem search_of_shape {x : Floats} {k nq : Nat} {out : Slots}
    (h : checkShape s.storage.dimension x k out = .ok nq) :
    Index.search s x k out =
      if s.shift.size = s.storage.count then
        .done (Scan.nearestShifted x s.storage.data s.shift s.storage.dimension k
          out.distances.size)
      else .fail (.shiftSizeMismatch s.shift.size s.storage.count) out := by
  show Outcome.replace out (s.search x k out) = _
  unfold Shifted.search
  rw [h]
  by_cases hshift : s.shift.size = s.storage.count
  · rw [if_neg (not_not.2 hshift), if_pos hshift]
    rfl
  · rw [if_pos hshift, if_neg hshift]
    rfl

theorem search_answer_iff {x : Floats} {k nq : Nat} {out : Slots}
    (h : checkShape s.storage.dimension x k out = .ok nq) :
    (Index.search s x k out).answer = .ok () ↔ s.shift.size = s.storage.count := by
  rw [s.search_of_shape h]
  split
  · next hshift => exact iff_of_true rfl hshift
  · next hshift => exact iff_of_false nofun hshift

theorem nearestShifted_row {x : Floats} {k size i : Nat} (hi : i < x.size / s.storage.dimension)
    (hroom : (i + 1) * k ≤ size)
    (hn : ∀ c ∈ s.candidates (rowOf s.storage.dimension x i), c.IsNumber) :
    (Scan.nearestShifted x s.storage.data s.shift s.storage.dimension k size).row k i =
      .ofCandidates
      ((Candidate.bestFirst .l2 (s.candidates (rowOf s.storage.dimension x i))).take k ++
        List.replicate (k - s.storage.count) .padding) :=
  Scan.best_row_of_isNumber hi hroom hn

/-- A score less a zero of either sign is the distance. -/
theorem nearestShifted_of_isZero (hz : ∀ b ∈ s.shift, b.isZero = true) (x : Floats) (k size : Nat) :
    Scan.nearestShifted x s.storage.data s.shift s.storage.dimension k size =
      Scan.nearest .l2 x s.storage.data s.storage.dimension k size := by
  refine Scan.best_congr fun i hi j hj => ?_
  have hpos := s.storage.dimension_pos
  have hunsigned := isUnsigned_squaredDistance
    (by rw [size_rowOf_of_lt hi]; exact hpos) (by rw [size_rowOf_of_lt hj]; exact hpos)
  have hzero : (s.shift.getD j .zero).isZero = true := by
    rw [Array.getD_eq_getD_getElem?]
    cases hb : s.shift[j]? with
    | none => rfl
    | some b => exact hz b (Array.mem_of_getElem? hb)
  exact hunsigned.sub_of_isZero hzero

/-- With buffers of the right size a search succeeds just if there is a shift for each stored
vector, and otherwise says how many there are. At each query without a NaN score it writes the first
`k` stored vectors in the order of distance less shift, equal scores by label, each with its score,
and fills the other slots with padding. If all shifts are zeros, it writes what a flat index of the
same vectors does, whatever numbers there are. -/
theorem search_ranks_scores {x : Floats} {k nq : Nat} {out : Slots}
    (h : WellShaped s.storage.dimension x k out nq) :
    ((Index.search s x k out).answer = .ok () ↔ s.shift.size = s.storage.count) ∧
      (s.shift.size ≠ s.storage.count → Index.search s x k out =
        .fail (.shiftSizeMismatch s.shift.size s.storage.count) out) ∧
      (s.shift.size = s.storage.count → ∃ found : Slots, Index.search s x k out = .done found ∧
        found.HasSize (nq * k) ∧
        (∀ i < nq, (∀ c ∈ s.candidates (rowOf s.storage.dimension x i), c.IsNumber) →
          found.row k i = .ofCandidates
            ((Candidate.bestFirst .l2 (s.candidates (rowOf s.storage.dimension x i))).take k ++
              List.replicate (k - s.storage.count) .padding)) ∧
        ((∀ b ∈ s.shift, b.isZero = true) → Index.search s.flat x k out = .done found)) := by
  have hsearch := s.search_of_shape h.checkShape
  refine ⟨s.search_answer_iff h.checkShape, fun hne => by rw [hsearch, if_neg hne], fun heq => ?_⟩
  rw [if_pos heq] at hsearch
  refine ⟨_, hsearch, ?_, fun i hi hn => ?_, fun hz => ?_⟩
  · rw [← Count.mul_eq h.fits]
    exact Scan.hasSize_best_of_checkShape h.checkShape
  · exact s.nearestShifted_row (h.eq_div ▸ hi) (h.room hi) hn
  · rw [s.nearestShifted_of_isZero hz]
    exact s.flat.search_of_shape h.checkShape

/-- Negative, tied and infinite scores, with a slot to spare; a shift too few; and zeros of both
signs among vectors that are not all numbers. -/
theorem search_ranks_scores_negative :
    let s : Shifted := ⟨⟨1, #[.one, .zero, .infinity, .zero], by decide, by decide⟩,
      #[.one, .one, .one, .one]⟩
    let out : Slots := ⟨.replicate 5 .one, .replicate 5 9⟩
    let zeros : Shifted := ⟨⟨1, #[.nan, .one, .zero], by decide, by decide⟩,
      #[.zero, .negZero, .negZero]⟩
    WellShaped 1 #[.zero] 5 out 1 ∧
      (∃ found : Slots, Index.search s #[.zero] 5 out = .done found ∧
        found.row 5 0 = .ofCandidates [⟨.neg .one, 1⟩, ⟨.neg .one, 3⟩, ⟨.zero, 0⟩, ⟨.infinity, 2⟩,
          .padding]) ∧
      Index.search (s.setShift #[.one]) #[.zero] 5 out = .fail (.shiftSizeMismatch 1 4) out ∧
      Index.search zeros #[.zero] 5 out = Index.search zeros.flat #[.zero] 5 out := by
  intro s out zeros
  have hshape : WellShaped 1 #[.zero] 5 out 1 := by decide
  have hbest : [⟨.neg .one, 1⟩, ⟨.neg .one, 3⟩, ⟨.zero, 0⟩, ⟨.infinity, 2⟩] =
      Candidate.bestFirst .l2 (s.candidates (rowOf 1 #[.zero] 0)) :=
    Candidate.eq_bestFirst (by decide) (by decide) (by decide)
  obtain ⟨-, -, hfinds⟩ := s.search_ranks_scores hshape
  obtain ⟨found, hfound, -, hrows, -⟩ := hfinds (by decide)
  have hrow := hrows 0 Nat.one_pos (by decide)
  rw [show rowOf s.storage.dimension #[.zero] 0 = rowOf 1 #[.zero] 0 from rfl, ← hbest] at hrow
  obtain ⟨-, hfails, -⟩ := (s.setShift #[.one]).search_ranks_scores hshape
  have hcount : (s.setShift #[.one]).storage.count = 4 := by decide
  rw [hcount] at hfails
  obtain ⟨-, -, hzeros⟩ := zeros.search_ranks_scores hshape
  obtain ⟨found', hfound', -, -, hflat⟩ := hzeros (by decide)
  exact ⟨hshape, ⟨found, hfound, hrow.trans (by decide)⟩, hfails (by decide),
    hfound'.trans (hflat (by decide)).symm⟩

end Shifted

end Neighbors
