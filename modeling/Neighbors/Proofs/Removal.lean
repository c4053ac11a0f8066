import Neighbors.Proofs.Rescore
import Neighbors.Proofs.Compaction
import Neighbors.Proofs.Matches

/-!
# Removal commutes with search

What is left in a flat index after a removal are its vectors from before under the labels of the
map (`Flat.candidates_remove`), and these keep their order. So a row is the whole order from before
without the vectors removed, and the matches of a range are those from before
(`Flat.search_remove`).
-/

namespace Neighbors

/-- The candidate under its new label, if it is still there. -/
def Compaction.rename? (c : Compaction) (a : Candidate) : Option Candidate :=
  (c.newLabel? a.label).map fun new => ⟨a.distance, new⟩

theorem Compaction.distance_of_rename? {c : Compaction} {a b : Candidate}
    (h : c.rename? a = some b) : b.distance = a.distance := by
  obtain ⟨new, -, rfl⟩ := Option.map_eq_some_iff.1 h
  rfl

/-- What keeps the order of candidates keeps the order that they are sorted in. -/
theorem Candidate.bestFirst_filterMap {metric : Metric} {cs : List Candidate}
    {g : Candidate → Option Candidate}
    (hmono : ∀ a ∈ cs, ∀ b ∈ cs, a.rank metric ≤ b.rank metric → ∀ a' b', g a = some a' →
      g b = some b' → a'.rank metric ≤ b'.rank metric)
    (hd : Consistent (cs.filterMap g)) :
    (bestFirst metric cs).filterMap g = bestFirst metric (cs.filterMap g) := by
  have hperm := bestFirst_perm metric cs
  refine eq_bestFirst (hperm.filterMap g) ?_ hd
  refine List.pairwise_filterMap.2 ((bestFirst_pairwise metric cs).imp_of_mem ?_)
  intro a b ha hb hab a' ha' b' hb'
  exact hmono a (hperm.mem_iff.1 ha) b (hperm.mem_iff.1 hb) hab a' b' ha' hb'

namespace Flat

variable (f : Flat) (selector : Selector)

theorem candidates_eq_map_labelled (q : Floats) : f.candidates q =
    f.storage.labelled.map fun (l, v) => ⟨f.metric.distance q v, l⟩ := by
  rw [Storage.labelled_eq_map, List.map_map]
  rfl

theorem isSome_newLabel?_remove {l : Label} (hl : 0 ≤ l)
    (hlt : l < f.count) : ((f.remove selector).2.newLabel? l).isSome = !selector.isMember l := by
  have hnew := f.storage.newLabel?_compact (fun i => selector.isMember i) l.toNat
  rw [Int.toNat_of_nonneg hl] at hnew
  have hcount : l.toNat < f.storage.count := (Int.toNat_lt hl).2 hlt
  show ((f.storage.compact fun i => selector.isMember i).2.newLabel? l).isSome = _
  rw [hnew]
  cases selector.isMember l <;> simp [hcount]

theorem candidates_remove (q : Floats) : (f.remove selector).1.candidates q =
    (f.candidates q).filterMap (f.remove selector).2.rename? := by
  have hlabelled := f.storage.labelled_compact fun i => selector.isMember i
  rw [candidates_eq_map_labelled, candidates_eq_map_labelled, List.filterMap_map]
  show ((f.storage.compact fun i => selector.isMember i).1.labelled).map _ = _
  rw [hlabelled, List.map_filterMap]
  refine List.filterMap_congr fun (l, v) _ => ?_
  simp only [Option.map_map, Function.comp_apply]
  rfl

variable {f selector}

theorem rank_rename?_le {q : Floats} {a b a' b' : Candidate} (ha : a ∈ f.candidates q)
    (hb : b ∈ f.candidates q) (hab : a.rank f.metric ≤ b.rank f.metric)
    (ha' : (f.remove selector).2.rename? a = some a')
    (hb' : (f.remove selector).2.rename? b = some b') : a'.rank f.metric ≤ b'.rank f.metric := by
  rw [Candidate.rank_le_iff] at hab ⊢
  rw [Compaction.distance_of_rename? ha', Compaction.distance_of_rename? hb']
  rcases hab with hlt | ⟨heq, hle⟩
  · exact .inl hlt
  · obtain ⟨i, -, rfl⟩ := List.mem_map.1 ha
    obtain ⟨j, -, rfl⟩ := List.mem_map.1 hb
    obtain ⟨new, hnew, rfl⟩ := Option.map_eq_some_iff.1 ha'
    obtain ⟨new', hnew', rfl⟩ := Option.map_eq_some_iff.1 hb'
    exact .inr ⟨heq, Storage.newLabel?_compact_mono _ _ (Int.ofNat_le.1 hle) hnew hnew'⟩

theorem bestFirst_candidates_remove (f : Flat) (selector : Selector) (q : Floats) :
    Candidate.bestFirst f.metric ((f.remove selector).1.candidates q) =
      (Candidate.bestFirst f.metric (f.candidates q)).filterMap (f.remove selector).2.rename? := by
  have hd := consistent_candidates (f.remove selector).1 q
  rw [candidates_remove] at hd ⊢
  symm
  apply Candidate.bestFirst_filterMap _ hd
  exact fun a ha b hb hab a' b' ha' hb' => rank_rename?_le ha hb hab ha' hb'

theorem isNumber_candidates_remove {q : Floats} (h : ∀ c ∈ f.candidates q, c.IsNumber) :
    ∀ c ∈ (f.remove selector).1.candidates q, c.IsNumber := by
  intro c hc
  rw [candidates_remove] at hc
  obtain ⟨a, ha, hrename⟩ := List.mem_filterMap.1 hc
  rw [Candidate.IsNumber, Compaction.distance_of_rename? hrename]
  exact h a ha

/-- The matches from before, without the vectors removed. -/
theorem matching_remove (f : Flat) (selector : Selector) (radius : Binary32) (q : Floats) :
    (f.remove selector).1.matching radius q =
      (f.matching radius q).filterMap (f.remove selector).2.rename? := by
  rw [matching, candidates_remove, List.filter_filterMap, matching, List.filterMap_filter]
  refine List.filterMap_congr fun a _ => ?_
  cases hrename : (f.remove selector).2.rename? a with
  | none => simp
  | some b =>
    have hdistance := Compaction.distance_of_rename? hrename
    show Option.filter _ _ = _
    rw [Option.filter_some, hdistance]
    rfl

theorem nearest_row_all {x : Floats} {size i : Nat} (hi : i < x.size / f.dimension)
    (hroom : (i + 1) * f.count ≤ size)
    (hn : ∀ c ∈ f.candidates (rowOf f.dimension x i), c.IsNumber) :
    ((Scan.nearest f.metric x f.vectors f.dimension f.count size).row f.count i).candidates =
      Candidate.bestFirst f.metric (f.candidates (rowOf f.dimension x i)) := by
  have hlen : (Candidate.bestFirst f.metric (f.candidates (rowOf f.dimension x i))).length =
      f.count := by
    rw [(Candidate.bestFirst_perm _ _).length_eq, length_candidates]
  rw [f.nearest_row hi hroom hn, Slots.candidates_ofCandidates, Nat.sub_self, List.replicate_zero,
    List.append_nil, List.take_of_length_le (Nat.le_of_eq hlen)]

/-- The row after a removal, from the row of all vectors before it. -/
theorem nearest_remove (selector : Selector) {x : Floats} {k size all i : Nat}
    (hi : i < x.size / f.dimension) (hroom : (i + 1) * k ≤ size) (hall : (i + 1) * f.count ≤ all)
    (hn : ∀ c ∈ f.candidates (rowOf f.dimension x i), c.IsNumber) :
    let rest := (f.remove selector).1
    let kept := ((Scan.nearest f.metric x f.vectors f.dimension f.count all).row
      f.count i).candidates.filterMap (f.remove selector).2.rename?
    (Scan.nearest rest.metric x rest.vectors rest.dimension k size).row k i =
      .ofCandidates (kept.take k ++ List.replicate (k - kept.length) .padding) := by
  intro rest kept
  have hbest :
      kept = Candidate.bestFirst rest.metric (rest.candidates (rowOf f.dimension x i)) := by
    dsimp only [kept]
    rw [nearest_row_all hi hall hn]
    exact (bestFirst_candidates_remove f selector _).symm
  have hlen : kept.length = rest.count := by
    rw [hbest, (Candidate.bestFirst_perm _ _).length_eq, length_candidates]
  rw [hlen, hbest]
  exact rest.nearest_row hi hroom (isNumber_candidates_remove hn)

/-- The map of a removal has no label just for the vectors selected. After the removal each row of a
search is the row of all vectors from before, without the vectors removed, under the labels of the
map, cut to `k` slots or padded to them. The matches of a range search are those from before without
the vectors removed, under the labels of the map, whatever the distances are. -/
theorem search_remove (f : Flat) (selector : Selector) {x : Floats} {k nq : Nat} {out all : Slots}
    (hshape : Index.WellShaped f.dimension x k out nq)
    (hall : Index.WellShaped f.dimension x f.count all nq) :
    let rest := (f.remove selector).1
    let map := (f.remove selector).2
    (∀ l : Label, 0 ≤ l → l < f.count → (map.newLabel? l = none ↔ selector.isMember l = true)) ∧
    (∃ before after : Slots, Index.search f x f.count all = .done before ∧
      Index.search rest x k out = .done after ∧
      ∀ i < nq, (∀ c ∈ f.candidates (rowOf f.dimension x i), c.IsNumber) →
        let kept := (before.row f.count i).candidates.filterMap map.rename?
        after.row k i =
          .ofCandidates (kept.take k ++ List.replicate (k - kept.length) .padding)) ∧
    ∀ radius, ∃ before after : Matches, Index.rangeSearch f x radius = .ok before ∧
      Index.rangeSearch rest x radius = .ok after ∧
      before.queryCount = nq ∧ after.queryCount = nq ∧
      ∀ i < nq, after.query i =
        .ofCandidates ((before.query i).candidates.filterMap map.rename?) := by
  intro rest map
  have hrows := hshape.rows
  have hrows' : rowCount rest.dimension x = .ok nq := hrows
  have hnq := hshape.eq_div
  refine ⟨fun l hl hlt => ?_, ?_, fun radius => ?_⟩
  · rw [← Option.not_isSome_iff_eq_none, isSome_newLabel?_remove f selector hl hlt,
      Bool.not_eq_true', Bool.not_eq_false]
  · refine ⟨_, _, search_of_shape f hall.checkShape, search_of_shape rest hshape.checkShape,
      fun i hi hn => ?_⟩
    exact nearest_remove selector (hnq ▸ hi) (hshape.room hi) (hall.room hi) hn
  · refine ⟨_, _, rangeSearch_of_rows radius hrows, rangeSearch_of_rows radius hrows', ?_, ?_,
      fun i hi => ?_⟩
    · simp [Scan.rows, hnq]
    · simp [Scan.rows, hnq]
      rfl
    · rw [query_rangeSearch radius hrows hi, query_rangeSearch radius hrows' hi, matching_remove,
        Slots.candidates_ofCandidates]
      rfl

/-- One of two vectors that tie is removed, and the row is not filled any more. -/
theorem search_remove_tie :
    let f : Flat := ⟨⟨1, #[.one, .zero, .one, .negZero], by decide, by decide⟩, .innerProduct⟩
    let rest : Flat := (f.remove (.range 0 1)).1
    let out : Slots := ⟨.replicate 4 .one, .replicate 4 9⟩
    Index.WellShaped f.dimension #[.one] 4 out 1 ∧
      (f.remove (.range 0 1)).2.newLabel? 0 = none ∧
      ((Index.search f #[.one] f.count out).state.row f.count 0).candidates =
        [⟨.one, 0⟩, ⟨.one, 2⟩, ⟨.zero, 1⟩, ⟨.negZero, 3⟩] ∧
      (Index.search rest #[.one] 4 out).state.row 4 0 =
        .ofCandidates [⟨.one, 1⟩, ⟨.zero, 0⟩, ⟨.negZero, 2⟩, .padding] := by
  intro f rest out
  have hshape : Index.WellShaped f.dimension #[.one] 4 out 1 := by decide
  have hwhole : Index.WellShaped f.dimension #[.one] f.count out 1 := by decide
  have hall : ((Index.search f #[.one] f.count out).state.row f.count 0).candidates =
      [⟨.one, 0⟩, ⟨.one, 2⟩, ⟨.zero, 1⟩, ⟨.negZero, 3⟩] := by decide +kernel
  obtain ⟨hlabels, ⟨before, after, hbefore, hafter, hrows⟩, -⟩ :=
    search_remove f (.range 0 1) hshape hwhole
  have hrow := hrows 0 Nat.one_pos (by decide +kernel)
  have hbest := hall
  rw [hbefore] at hbest
  dsimp only [Outcome.done] at hbest hrow
  rw [hbest] at hrow
  refine ⟨hshape, (hlabels 0 (by decide) (by decide)).2 (by decide), hall, ?_⟩
  rw [hafter]
  exact hrow.trans (by decide +kernel)

end Flat

end Neighbors
