import Neighbors.Proofs.Matches
import Neighbors.Proofs.Listed
import Neighbors.Proofs.SortedAxis.Nearest

/-!
# What a range search finds

A range search answers for each query the stored vectors within the radius, in label order, and a
NaN is within no radius. A row of a search that has a slot for each vector lists all of them with
their scores, so that its entries within the radius are the same ones (`Slots.Lists.within_perm`).
This holds of a flat index and of a sorted one with a current order, although the two find their
rows in different ways (`Matches.rangeSearch_finds_within`).
-/

namespace Neighbors

open Index

/-! ## Vectors within a radius -/

theorem Metric.withinRadius_nan (metric : Metric) {distance : Binary32}
    (h : distance.isNaN = true) (radius : Binary32) :
    metric.withinRadius distance radius = false := by
  cases metric with
  | l2 => exact Binary32.le_nan_left h radius
  | innerProduct => exact Binary32.le_nan_right radius h

/-- Those of `count` vectors whose scores are within the radius, in label order. -/
def Metric.within (metric : Metric) (count : Nat) (score : Nat → Binary32) (radius : Binary32) :
    List Candidate :=
  ((List.range count).filter fun l => metric.withinRadius (score l) radius).map
    fun (l : Nat) => ⟨score l, l⟩

/-- Scores that differ only in being different NaNs have the same vectors within a radius. -/
theorem Metric.within_congr (metric : Metric) {count : Nat} {score score' : Nat → Binary32}
    (radius : Binary32) (h : ∀ l < count, score l = score' l ∨
      (score l).isNaN = true ∧ (score' l).isNaN = true) :
    metric.within count score radius = metric.within count score' radius := by
  have hfilter : (List.range count).filter (fun l => metric.withinRadius (score l) radius) =
      (List.range count).filter fun l => metric.withinRadius (score' l) radius := by
    refine List.filter_congr fun l hl => ?_
    rcases h l (List.mem_range.1 hl) with heq | ⟨hnan, hnan'⟩
    · rw [heq]
    · rw [metric.withinRadius_nan hnan, metric.withinRadius_nan hnan']
  unfold within
  rw [hfilter]
  refine List.map_congr_left fun l hl => ?_
  obtain ⟨hmem, hwithin⟩ := List.mem_filter.1 hl
  rcases h l (List.mem_range.1 hmem) with heq | ⟨-, hnan'⟩
  · rw [heq]
  · rw [metric.withinRadius_nan hnan'] at hwithin
    cases hwithin

/-- A row with a slot for each vector has all that is within the radius. -/
theorem Slots.Lists.within_perm {n : Nat} {score : Nat → Binary32} {row : Slots}
    (h : row.Lists n n score) (metric : Metric) (radius : Binary32) :
    (row.candidates.filter fun c => metric.withinRadius c.distance radius).Perm
      (metric.within n score radius) := by
  obtain ⟨labels, -, -, -, hall, rfl⟩ := h
  have hperm : labels.Perm (List.range n) := hall (Nat.le_refl n)
  rw [Slots.candidates_ofCandidates, Nat.sub_self, List.replicate_zero, List.append_nil,
    List.filter_map]
  exact (hperm.filter _).map _

/-- The matches of a range search: laid out for `nq` queries, for each query the vectors within the
radius by their scores, in label order. As many slots as there are vectors hold the same entries
within the radius. -/
structure Index.FindsWithin {σ : Type} [Index σ] (s : σ) (score : Floats → Nat → Binary32)
    (x : Floats) (nq : Nat) (radius : Binary32) (found : Matches) : Prop where
  laidOut : found.LaidOut nq
  listed : ∀ i < nq, found.query i = .ofCandidates
    ((metric s).within (count s) (score (rowOf (dimension s) x i)) radius)
  searched : ∀ out, WellShaped (dimension s) x (count s) out nq →
    ∃ all, Index.search s x (count s) out = .done all ∧ ∀ i < nq,
      ((all.row (count s) i).candidates.filter
        fun c => (metric s).withinRadius c.distance radius).Perm (found.query i).candidates

/-! ## The flat index -/

namespace Flat

theorem matching_eq_within (f : Flat) (radius : Binary32) (q : Floats) :
    f.matching radius q = f.metric.within f.count (f.score q) radius := by
  unfold matching candidates
  rw [List.filter_map]
  rfl

theorem findsWithin (f : Flat) {x : Floats} {nq : Nat} (radius : Binary32)
    (h : rowCount f.dimension x = .ok nq) : ∃ found, Index.rangeSearch f x radius = .ok found ∧
      FindsWithin f f.score x nq radius found := by
  have hnq := (rowCount_eq_ok_iff.1 h).2.2
  have hlisted : ∀ i < nq, (Matches.ofPartials ((Scan.rows f.dimension x).map
      (f.matching radius))).query i = .ofCandidates
        (f.metric.within f.count (f.score (rowOf f.dimension x i)) radius) := by
    intro i hi
    rw [query_rangeSearch radius h hi, matching_eq_within]
  refine ⟨_, rangeSearch_of_rows radius h, ?_, hlisted, fun out hout => ?_⟩
  · have hlaid := Matches.laidOut_ofPartials ((Scan.rows f.dimension x).map (f.matching radius))
    rwa [List.length_map, Scan.length_rows, ← hnq] at hlaid
  · refine ⟨_, search_of_shape f hout.checkShape, fun i hi => ?_⟩
    rw [hlisted i hi, Slots.candidates_ofCandidates]
    exact Slots.Lists.within_perm (Scan.lists_best (hnq ▸ hi) (hout.room hi)) f.metric radius

end Flat

/-! ## The sorted index -/

namespace SortedAxis

variable {s : SortedAxis} {q : Binary32}

def squaredOffset (values : Floats) (q : Binary32) (l : Nat) : Binary32 :=
  (candidateOf values q l).distance

theorem score_flat {l : Nat} (hl : l < s.values.size) :
    s.flat.score #[q] l = .negZero + squaredOffset s.values q l := by
  have hrow : rowOf s.flat.dimension s.flat.vectors l = #[s.values[l]] := rowOf_one hl
  have hvalue : s.values.getD l .zero = s.values[l] := by simp [Array.getD, hl]
  rw [Flat.score, hrow, squaredOffset, candidateOf, hvalue]
  rfl

/-- The two indexes score a value alike, but for the bits of a NaN. -/
theorem score_flat_eq_or_nan {l : Nat} (hl : l < s.values.size) :
    squaredOffset s.values q l = s.flat.score #[q] l ∨
      (squaredOffset s.values q l).isNaN = true ∧ (s.flat.score #[q] l).isNaN = true := by
  rw [score_flat hl]
  by_cases hnan : (squaredOffset s.values q l).isNaN = true
  · exact .inr ⟨hnan, Binary32.isNaN_add_right hnan⟩
  · have hdiff : ¬(q - s.values.getD l .zero).isNaN = true :=
      fun h => hnan (Binary32.isNaN_mul_self h)
    exact .inl (Binary32.negZero_add hnan (Binary32.mul_self_negative hdiff)).symm

/-- With a slot for each value, a row lists every value: the one that a NaN keeps from being
compared as well. -/
theorem lists_searchRow (h : Argsort s.values s.count s.order) (q : Binary32) :
    (Slots.ofCandidates (s.searchRow s.count q)).Lists s.count s.count
      (squaredOffset s.values q) := by
  have hcovers : Covers s.values q s.count (.ofCandidates (s.searchRow s.count q)) := by
    by_cases hu : s.Undecided q
    · rw [searchRow_of_undecided h hu]
      exact covers_once hu.1 (by rw [hu.1]; exact Nat.one_lt_two)
    · exact covers_searchRow h hu s.count
  obtain ⟨labels, hnodup, hlt, hlen, hrow⟩ := hcovers
  refine ⟨labels, hnodup, hlt, hlen, fun _ => ?_, hrow⟩
  have hsub : labels.Subperm (List.range s.count) :=
    List.subperm_of_subset hnodup fun l hl => List.mem_range.2 (hlt l hl)
  refine hsub.perm_of_length_le ?_
  rw [List.length_range, hlen]
  exact Nat.le_min.2 ⟨Nat.le_refl _, Nat.le_refl _⟩

theorem findsWithin (h : Argsort s.values s.count s.order) (hc : s.isCurrent = true) (x : Floats)
    (radius : Binary32) : ∃ found, Index.rangeSearch s x radius = .ok found ∧
      FindsWithin s s.flat.score x x.size radius found := by
  obtain ⟨found, hfound, hlaid, hlisted, -⟩ := s.flat.findsWithin radius (rowCount_one x)
  change ∀ i < x.size, found.query i = .ofCandidates
    (Metric.l2.within s.flat.count (s.flat.score (rowOf 1 x i)) radius) at hlisted
  rw [count_flat] at hlisted
  refine ⟨found, hfound, hlaid, hlisted, fun out hout => ?_⟩
  have hok : (Index.search s x s.count out).answer = .ok () := by
    rw [search_answer, if_pos hc, show checkShape 1 x s.count out = .ok _ from hout.checkShape]
    rfl
  refine ⟨_, Outcome.eq_done hok, fun i hi => ?_⟩
  have hrow : (Index.search s x s.count out).state.row s.count i = _ :=
    search_row hok hi (hout.room hi)
  have hperm := (lists_searchRow h x[i]).within_perm .l2 radius
  have hscores : Metric.l2.within s.count (squaredOffset s.values x[i]) radius =
      Metric.l2.within s.count (s.flat.score #[x[i]]) radius :=
    Metric.within_congr .l2 radius fun l hl => score_flat_eq_or_nan hl
  rw [hlisted i hi, Slots.candidates_ofCandidates, rowOf_one hi, ← hscores]
  show (((Index.search s x s.count out).state.row s.count i).candidates.filter _).Perm _
  rw [hrow]
  exact hperm

end SortedAxis

/-! ## Every range search -/

/-- Whatever is stored and asked, NaN and infinities included, a range search in a flat index, and
in a sorted one with a current order, answers for each query just the vectors within the radius,
with their distances and in label order, laid out between limits from zero to the number of all
matches. They are the entries within the radius that a search for all vectors finds. Matches put
together from those of several queries give those of each query back. -/
theorem Matches.rangeSearch_finds_within :
    (∀ (f : Flat) (x : Floats) (nq : Nat) (radius : Binary32),
      rowCount f.dimension x = .ok nq → ∃ found, Index.rangeSearch f x radius = .ok found ∧
        FindsWithin f f.score x nq radius found) ∧
    (∀ s : SortedAxis, SortedAxis.Reachable s → s.isCurrent = true →
      ∀ (x : Floats) (radius : Binary32), ∃ found, Index.rangeSearch s x radius = .ok found ∧
        FindsWithin s s.flat.score x x.size radius found) ∧
    ∀ parts : List (List Candidate), (ofPartials parts).LaidOut parts.length ∧
      ∀ i (hi : i < parts.length), (ofPartials parts).query i = .ofCandidates parts[i] :=
  ⟨fun f _ _ radius h => f.findsWithin radius h,
    fun _ hs hc x radius => SortedAxis.findsWithin (hs.ordered.argsort_of_isCurrent hc) hc x radius,
    fun parts => ⟨laidOut_ofPartials parts, fun _ hi => query_ofPartials hi⟩⟩

/-- Two queries, one of them no number, among values that are not all numbers either. -/
theorem Matches.rangeSearch_finds_within_nan :
    let f : Flat := ⟨⟨1, #[.nan, .one, .infinity, .zero], by decide, by decide⟩, .innerProduct⟩
    let s : SortedAxis := (Index.add (.empty {}) #[.one, .nan, .zero]).state
    let parts : List (List Candidate) := [[⟨.one, 3⟩, ⟨.nan, 1⟩], [], [⟨.zero, 0⟩]]
    rowCount f.dimension #[.one, .nan] = .ok 2 ∧
      (∃ found, Index.rangeSearch f #[.one, .nan] .one = .ok found ∧
        found.query 0 = .ofCandidates [⟨.one, 1⟩, ⟨.infinity, 2⟩] ∧
        found.query 1 = .ofCandidates []) ∧
      SortedAxis.Reachable s ∧ s.isCurrent = true ∧
      (∃ found, Index.rangeSearch s #[.one, .infinity] .infinity = .ok found ∧
        found.query 0 = .ofCandidates [⟨.zero, 0⟩, ⟨.one, 2⟩] ∧
        found.limits[2]? = some found.total ∧
        ∃ all, Index.search s #[.one, .infinity] 3 ⟨.replicate 6 .zero, .replicate 6 9⟩ =
          .done all ∧ ((all.row 3 0).candidates.filter
            fun c => Metric.l2.withinRadius c.distance .infinity).Perm
              [⟨.zero, 0⟩, ⟨.one, 2⟩]) ∧
      (ofPartials parts).limits[3]? = some 3 ∧
        (ofPartials parts).query 0 = .ofCandidates [⟨.one, 3⟩, ⟨.nan, 1⟩] := by
  intro f s parts
  obtain ⟨hflat, hsorted, hparts⟩ := rangeSearch_finds_within
  have hrows : rowCount f.dimension #[.one, .nan] = .ok 2 := by decide
  have hs : SortedAxis.Reachable s := .add _ (.empty _)
  have hc : s.isCurrent = true := (SortedAxis.isCurrent_iff s).2 (hs.ordered.continuous rfl)
  obtain ⟨found, hfound, hwithin⟩ := hflat f _ 2 .one hrows
  obtain ⟨found', hfound', hwithin'⟩ := hsorted s hs hc #[.one, .infinity] .infinity
  have hquery : found'.query 0 = .ofCandidates [⟨.zero, 0⟩, ⟨.one, 2⟩] :=
    (hwithin'.listed 0 (by decide)).trans (by decide +kernel)
  obtain ⟨all, hall, hentries⟩ :=
    hwithin'.searched ⟨.replicate 6 .zero, .replicate 6 9⟩ (by decide)
  have hperm := hentries 0 (by decide)
  rw [hquery] at hperm
  obtain ⟨hlaid, hgiven⟩ := hparts parts
  exact ⟨hrows,
    ⟨found, hfound, (hwithin.listed 0 (by decide)).trans (by decide +kernel),
      (hwithin.listed 1 (by decide)).trans (by decide +kernel)⟩,
    hs, hc, ⟨found', hfound', hquery, hwithin'.laidOut.last, all, hall, hperm⟩,
    hlaid.last, hgiven 0 (by decide)⟩

end Neighbors
