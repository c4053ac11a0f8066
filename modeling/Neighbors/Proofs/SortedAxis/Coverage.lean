import Neighbors.Proofs.SortedAxis.Order
import Neighbors.Proofs.SortedAxis.Walk
import Mathlib.Data.List.Nodup

/-!
# Which values a row of the sorted index names

A row is a walk over the sorted positions, so that it names different values, as many as fit
(`Covers`). The one exception is a single value that a NaN keeps from being compared: the row names
it twice (`Reachable.covers_search_iff`).
-/

namespace Neighbors.SortedAxis

variable {s : SortedAxis} {values x : Floats} {q : Binary32} {k i : Nat} {out : Slots}

def candidateOf (values : Floats) (q : Binary32) (l : Nat) : Candidate :=
  let diff := q - values.getD l .zero
  ⟨diff * diff, l⟩

/-- The row names different values, each with its squared distance to `q`. It names as many as
there are or as fit, and the slots behind them are empty. -/
def Covers (values : Floats) (q : Binary32) (k : Nat) (row : Slots) : Prop :=
  ∃ labels : List Nat, labels.Nodup ∧ (∀ l ∈ labels, l < values.size) ∧
    labels.length = min k values.size ∧
    row = .ofCandidates (labels.map (candidateOf values q) ++
      List.replicate (k - values.size) .padding)

/-! ## Rows -/

/-- The sorted positions that a row shows, from the nearest on. -/
def positions (s : SortedAxis) (k : Nat) (q : Binary32) : List Nat :=
  Frontier.given s.valueAt q s.order.size k (Frontier.locate s.valueAt q s.order.size)

theorem searchRow_eq (s : SortedAxis) (k : Nat) (q : Binary32) :
    s.searchRow k q = (s.positions k q).map (s.candidateAt q) ++
      List.replicate (k - (s.positions k q).length) .padding := by
  simp only [searchRow, positions, Frontier.walk_eq, List.map_append, List.map_map,
    List.map_replicate]
  rfl

theorem length_searchRow (s : SortedAxis) (k : Nat) (q : Binary32) :
    (s.searchRow k q).length = k := by
  have hle : (s.positions k q).length ≤ k := Frontier.length_given_le k _
  rw [searchRow_eq, List.length_append, List.length_map, List.length_replicate]
  omega

theorem search_eq_done (h : (Index.search s x k out).answer = .ok ()) :
    Index.search s x k out = .done (.fillRows out.distances.size k x.toList s.searchRow) := by
  obtain ⟨nq, hshape⟩ := checkShape_of_search h
  show Outcome.replace out (s.search x k out) = _
  rw [SortedAxis.search, isCurrent_of_search h, hshape]
  rfl

theorem search_row (h : (Index.search s x k out).answer = .ok ()) (hi : i < x.size)
    (hroom : (i + 1) * k ≤ out.distances.size) :
    (Index.search s x k out).state.row k i = .ofCandidates (s.searchRow k x[i]) := by
  rw [search_eq_done h]
  show (Slots.fillRows out.distances.size k x.toList s.searchRow).row k i = _
  rw [Slots.row_fillRows (fun _ _ => length_searchRow s _ _) (by simpa using hi) hroom,
    Array.getElem_toList]

/-! ## Labels -/

theorem candidateAt_eq (s : SortedAxis) (q : Binary32) (i : Nat) :
    s.candidateAt q i = candidateOf s.values q (s.labelAt i) := rfl

theorem labelAt_eq (s : SortedAxis) (hi : i < s.order.size) : s.labelAt i = s.order[i] := by
  simp [labelAt, hi]

theorem map_labelAt_range (s : SortedAxis) :
    (List.range s.order.size).map s.labelAt = s.order.toList := by
  refine List.ext_getElem (by simp) fun i hi hi' => ?_
  rw [List.getElem_map, List.getElem_range, labelAt_eq s (by simpa using hi'), Array.getElem_toList]

theorem labelAt_lt (h : Argsort s.values s.count s.order) (hi : i < s.order.size) :
    s.labelAt i < s.count := by
  rw [labelAt_eq s hi]
  exact h.lt_of_mem (Array.getElem_mem_toList hi)

theorem nodup_labels (h : Argsort s.values s.count s.order) {l : List Nat} (hd : l.Nodup)
    (hl : ∀ i ∈ l, i < s.order.size) : (l.map s.labelAt).Nodup := by
  have hnodup : s.order.toList.Nodup := h.perm.nodup_iff.2 List.nodup_range
  refine List.Nodup.map_on (fun i hi j hj hij => ?_) hd
  rw [labelAt_eq s (hl i hi), labelAt_eq s (hl j hj), ← Array.getElem_toList,
    ← Array.getElem_toList] at hij
  exact (List.Nodup.getElem_inj_iff hnodup).1 hij

/-! ## What rows name -/

/-- There is one stored value, and it or the query is no number. -/
def Undecided (s : SortedAxis) (q : Binary32) : Prop :=
  s.count = 1 ∧ (q.isNaN = true ∨ (s.values.getD 0 .zero).isNaN = true)

theorem labelAt_zero (h : Argsort s.values s.count s.order) (hone : s.count = 1) :
    s.labelAt 0 = 0 := by
  have hpos : 0 < s.order.size := by rw [h.size_eq, hone]; exact Nat.one_pos
  have hlt := labelAt_lt h hpos
  omega

theorem undecided_iff (h : Argsort s.values s.count s.order) :
    s.Undecided q ↔ Frontier.Undecided s.valueAt q s.order.size := by
  rw [Frontier.undecided_iff, h.size_eq]
  refine and_congr_right fun hone => ?_
  rw [valueAt, labelAt_zero h hone]

theorem covers_searchRow (h : Argsort s.values s.count s.order) (hu : ¬s.Undecided q) (k : Nat) :
    Covers s.values q k (.ofCandidates (s.searchRow k q)) := by
  obtain ⟨hd, hlt, hlen⟩ := Frontier.given_locate k ((undecided_iff h).not.1 hu)
  have hlen' : (s.positions k q).length = min k s.values.size := by
    rw [positions, hlen, h.size_eq, count]
  refine ⟨(s.positions k q).map s.labelAt, nodup_labels h hd hlt, fun l hl => ?_,
    (List.length_map _).trans hlen', ?_⟩
  · obtain ⟨i, hi, rfl⟩ := List.mem_map.1 hl
    exact labelAt_lt h (hlt i hi)
  · have hrest : k - (s.positions k q).length = k - s.values.size := by omega
    rw [searchRow_eq, hrest, List.map_map]
    rfl

theorem searchRow_of_undecided (h : Argsort s.values s.count s.order) (hu : s.Undecided q)
    (k : Nat) : s.searchRow k q = List.replicate (min k 2) (candidateOf s.values q 0) ++
      List.replicate (k - 2) .padding := by
  have hrest : k - min k 2 = k - 2 := by omega
  rw [searchRow_eq, positions, Frontier.given_undecided k ((undecided_iff h).1 hu),
    List.length_replicate, List.map_replicate, candidateAt_eq, labelAt_zero h hu.1, hrest]

theorem covers_once (hone : values.size = 1) (hk : k < 2) :
    Covers values q k (.ofCandidates
      (List.replicate (min k 2) (candidateOf values q 0) ++ List.replicate (k - 2) .padding)) := by
  have hk' : min k 2 = k ∧ k - 2 = k - values.size := by omega
  refine ⟨List.replicate k 0, List.nodup_replicate.2 (by omega), fun l hl => ?_, ?_, ?_⟩
  · rw [List.eq_of_mem_replicate hl, hone]
    exact Nat.one_pos
  · rw [List.length_replicate, hone]
    omega
  · rw [List.map_replicate, hk'.1, hk'.2]

/-- A row that names one value twice does not cover the values. -/
theorem not_covers_twice {c : Candidate} (hone : values.size = 1) (hk : 2 ≤ k)
    (hc : c.label ≠ noLabel) :
    ¬Covers values q k (.ofCandidates
      (List.replicate (min k 2) c ++ List.replicate (k - 2) .padding)) := by
  rintro ⟨labels, -, -, hlen, hrow⟩
  rw [hone, Nat.min_eq_right (Nat.le_of_succ_le hk)] at hlen
  obtain ⟨l, rfl⟩ := List.length_eq_one_iff.1 hlen
  obtain ⟨k, rfl⟩ := Nat.exists_eq_add_of_le hk
  rw [Nat.min_eq_right hk, hone, Nat.add_comm 2 k] at hrow
  have hsecond := congrArg (fun row : Slots => row.labels[1]?) hrow
  exact hc (by simpa [Slots.ofCandidates, List.replicate_succ, Candidate.padding] using hsecond)

/-- Every row of a successful search covers the values, except where the only value or the query is
no number and there is more than one slot: there the row names the value twice. -/
theorem Reachable.covers_search_iff (hs : Reachable s)
    (h : (Index.search s x k out).answer = .ok ()) (hi : i < x.size)
    (hroom : (i + 1) * k ≤ out.distances.size) :
    (Covers s.values x[i] k ((Index.search s x k out).state.row k i) ↔
      ¬(s.Undecided x[i] ∧ 2 ≤ k)) ∧
    (s.Undecided x[i] → (Index.search s x k out).state.row k i = .ofCandidates
      (List.replicate (min k 2) (candidateOf s.values x[i] 0) ++
        List.replicate (k - 2) .padding)) := by
  have hsort := hs.ordered.argsort_of_isCurrent (isCurrent_of_search h)
  rw [search_row h hi hroom]
  by_cases hu : s.Undecided x[i]
  · rw [searchRow_of_undecided hsort hu]
    refine ⟨⟨fun hcov hk => ?_, fun hk => ?_⟩, fun _ => rfl⟩
    · exact not_covers_twice hu.1 hk.2 (by show ((0 : Nat) : Int) ≠ -1; decide) hcov
    · exact covers_once hu.1 (Nat.not_le.1 fun h2 => hk ⟨hu, h2⟩)
  · exact ⟨iff_of_true (covers_searchRow hsort hu k) fun hk => hu hk.1, fun h => absurd h hu⟩

/-- An index in continuous mode with one value, asked for two neighbours of no number. -/
theorem not_covers_search_nan :
    let s := (Index.add (empty {}) #[.one]).state
    let found := Index.search s #[.nan] 2 ⟨.replicate 2 .zero, .replicate 2 noLabel⟩
    found.answer = .ok () ∧ ¬Covers s.values .nan 2 (found.state.row 2 0) ∧
      found.state.row 2 0 = .ofCandidates [⟨.nan, 0⟩, ⟨.nan, 0⟩] := by
  intro s found
  have hs : Reachable s := .add _ (.empty _)
  have hu : s.Undecided .nan := ⟨rfl, .inl rfl⟩
  have hok : found.answer = .ok () := by
    rw [search_answer, if_pos ((isCurrent_iff s).2 (hs.ordered.continuous rfl))]
    rfl
  have hrow := hs.covers_search_iff hok (i := 0) (by decide) (by decide)
  refine ⟨hok, fun hc => hrow.1.1 hc ⟨hu, Nat.le_refl 2⟩, (hrow.2 hu).trans ?_⟩
  rfl

end Neighbors.SortedAxis
