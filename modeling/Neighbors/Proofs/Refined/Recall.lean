import Mathlib.Algebra.Order.Field.Rat
import Mathlib.Data.List.Perm.Subperm
import Mathlib.Tactic.GCongr
import Neighbors.Proofs.Refined.CandidateCount
import Neighbors.Proofs.Shows

/-!
# Recall of a refined search

A refined row has the best of what the base proposes, a flat row the best of all vectors, in one
order. So a vector of the flat row is lost only by the base (`Flat.Chooses.mem_row_iff`), and recall
grows with the proposals (`Refined.search_finds_proposed`).
-/

namespace Neighbors

/-- How many of the labels found are true ones. -/
def hits (truth found : List Label) : Nat := found.countP (· ∈ truth)

def recallOf (truth found : List Label) : ℚ := hits truth found / truth.dedup.length

theorem recallOf_le_recallOf {truth found row : List Label}
    (h : hits truth found ≤ hits truth row) :
    recallOf truth found ≤ recallOf truth row := by
  have hcast : (hits truth found : ℚ) ≤ hits truth row := Nat.cast_le.2 h
  unfold recallOf
  gcongr

/-- A row that has every true label of another one has as many hits. Empty slots are hits where
the truth has one, which it has for want of vectors only. -/
theorem hits_le_hits {truth found row : List Label} (hlen : found.length ≤ row.length)
    (hd : (found.filter fun l => l ≠ noLabel).Nodup)
    (hin : ∀ l ∈ found, l ∈ truth → l ≠ noLabel → l ∈ row)
    (hempty : noLabel ∈ truth → ∀ l ∈ row, l ∈ truth) : hits truth found ≤ hits truth row := by
  unfold hits
  by_cases h : noLabel ∈ truth
  · calc found.countP (· ∈ truth) ≤ found.length := List.countP_le_length
      _ ≤ row.length := hlen
      _ = row.countP (· ∈ truth) := (List.countP_eq_length.2 (by simpa using hempty h)).symm
  · have hlabelled : ∀ l ∈ truth, l ≠ noLabel := fun l hl hno => h (hno ▸ hl)
    have hsub : (found.filter (· ∈ truth)).Subset (row.filter (· ∈ truth)) := by
      intro l hl
      obtain ⟨hfound, htrue⟩ := List.mem_filter.1 hl
      have htruth := of_decide_eq_true htrue
      exact List.mem_filter.2 ⟨hin l hfound htruth (hlabelled l htruth), htrue⟩
    have hnodup : (found.filter (· ∈ truth)).Nodup := by
      refine hd.sublist ?_
      apply List.monotone_filter_right
      intro l hl
      simpa using hlabelled l (of_decide_eq_true hl)
    rw [List.countP_eq_length_filter, List.countP_eq_length_filter]
    exact (List.subperm_of_subset hnodup hsub).length_le

/-! ## Rows of the best -/

/-- To drop elements moves none of the others back. -/
theorem mem_take_filter {α : Type} {p : α → Bool} {l : List α} {k : Nat} {a : α}
    (ha : a ∈ l.take k) (hp : p a = true) : a ∈ (l.filter p).take k := by
  have hsplit : l.filter p = (l.take k).filter p ++ (l.drop k).filter p := by
    rw [← List.filter_append, List.take_append_drop]
  have hlen : ((l.take k).filter p).length ≤ k :=
    (List.length_filter_le _ _).trans (List.length_take_le _ _)
  rw [hsplit, List.take_append, List.take_of_length_le hlen]
  exact List.mem_append_left _ (List.mem_filter.2 ⟨ha, hp⟩)

namespace Slots

def bestOf (metric : Metric) (k : Nat) (cs : List Candidate) : Slots :=
  .ofCandidates ((Candidate.bestFirst metric cs).take k ++ List.replicate (k - cs.length) .padding)

variable {metric : Metric} {k : Nat} {cs : List Candidate} {l : Label}

theorem labels_bestOf : (bestOf metric k cs).labels.toList =
    ((Candidate.bestFirst metric cs).take k).map Candidate.label ++
      List.replicate (k - cs.length) noLabel := by
  simp [bestOf, ofCandidates, Candidate.padding]

theorem length_labels_bestOf : (bestOf metric k cs).labels.toList.length = k := by
  rw [labels_bestOf, List.length_append, List.length_map, List.length_take,
    (Candidate.bestFirst_perm metric cs).length_eq, List.length_replicate]
  omega

theorem mem_labels_bestOf (h : l ∈ (bestOf metric k cs).labels.toList) (hl : l ≠ noLabel) :
    ∃ c ∈ (Candidate.bestFirst metric cs).take k, c.label = l := by
  rw [labels_bestOf] at h
  rcases List.mem_append.1 h with h | h
  · exact List.mem_map.1 h
  · exact absurd (List.eq_of_mem_replicate h) hl

end Slots

namespace Flat

variable {f : Flat} {q : Floats} {k : Nat} {l : Label}

theorem nodup_candidates (f : Flat) (q : Floats) : (f.candidates q).Nodup :=
  (Scan.nodup_labels_scored f.dimension f.vectors fun row _ => f.metric.distance q row).of_map

theorem proposable_of_mem {c : Candidate} (hc : c ∈ f.candidates q) :
    c.label.Proposable f.count := by
  obtain ⟨j, hj, rfl⟩ := List.mem_map.1 hc
  exact Label.proposable_natCast (List.mem_range.1 hj)

theorem candidateOf_mem (hl : l.Proposable f.count) (hno : l ≠ noLabel) :
    f.candidateOf q l ∈ f.candidates q := by
  obtain ⟨hpos, hlt⟩ := Label.isStored_iff.1 ((Label.proposable_iff.1 hl).resolve_left hno)
  obtain ⟨j, rfl⟩ := Int.eq_ofNat_of_zero_le hpos
  rw [candidates_eq_map]
  exact List.mem_map.2 ⟨j, List.mem_range.2 (Int.ofNat_lt.1 hlt), rfl⟩

/-- The row that a flat search writes for `q`. -/
def trueRow (f : Flat) (q : Floats) (k : Nat) : Slots := .bestOf f.metric k (f.candidates q)

/-- An empty slot in the row of all vectors means that there are no more of them. -/
theorem mem_trueRow_of_empty (hempty : noLabel ∈ (f.trueRow q k).labels.toList)
    (hl : l.Proposable f.count) : l ∈ (f.trueRow q k).labels.toList := by
  by_cases hno : l = noLabel
  · rwa [hno]
  have hbest := Candidate.bestFirst_perm f.metric (f.candidates q)
  have hshort : f.count ≤ k := by
    rw [trueRow, Slots.labels_bestOf] at hempty
    rcases List.mem_append.1 hempty with h | h
    · obtain ⟨c, hc, hlabel⟩ := List.mem_map.1 h
      exact absurd hlabel (label_ne_noLabel (hbest.mem_iff.1 (List.mem_of_mem_take hc)))
    · have hpos := List.length_pos_of_mem h
      rw [List.length_replicate, length_candidates] at hpos
      omega
  have hall : (Candidate.bestFirst f.metric (f.candidates q)).length ≤ k := by
    rwa [hbest.length_eq, length_candidates]
  rw [trueRow, Slots.labels_bestOf, List.take_of_length_le hall]
  refine List.mem_append_left _ (List.mem_map.2 ⟨f.candidateOf q l, ?_, rfl⟩)
  exact hbest.mem_iff.2 (candidateOf_mem hl hno)

/-! ## Rows of some of the vectors -/

/-- The labels `proposed` name the vectors `chosen`, none of them twice. -/
structure Chooses (f : Flat) (q : Floats) (proposed : List Label) (chosen : List Candidate) :
    Prop where
  nodup : chosen.Nodup
  stored : ∀ c ∈ chosen, c ∈ f.candidates q
  labels : chosen.map Candidate.label = proposed.filter fun l => l ≠ noLabel

namespace Chooses

variable {proposed proposed' : List Label} {chosen chosen' : List Candidate}

theorem mem_labels_iff (h : f.Chooses q proposed chosen) (hl : l ≠ noLabel) :
    l ∈ chosen.map Candidate.label ↔ l ∈ proposed := by
  rw [h.labels, List.mem_filter]
  simp [hl]

theorem bestFirst_eq (h : f.Chooses q proposed chosen) : Candidate.bestFirst f.metric chosen =
    (Candidate.bestFirst f.metric (f.candidates q)).filter (· ∈ chosen) := by
  have hchosen : ((f.candidates q).filter (· ∈ chosen)).Perm chosen := by
    refine (List.perm_ext_iff_of_nodup ((f.nodup_candidates q).filter _) h.nodup).2 fun c => ?_
    simpa using h.stored c
  have hconsistent : Candidate.Consistent chosen := fun a ha b hb =>
    f.consistent_candidates q a (h.stored a ha) b (h.stored b hb)
  symm
  refine Candidate.eq_bestFirst ?_ ?_ hconsistent
  · exact ((Candidate.bestFirst_perm _ _).filter _).trans hchosen
  · exact (Candidate.bestFirst_pairwise _ _).filter _

theorem mem_row_iff (h : f.Chooses q proposed chosen)
    (htrue : l ∈ (f.trueRow q k).labels.toList) (hl : l ≠ noLabel) :
    l ∈ (Slots.bestOf f.metric k chosen).labels.toList ↔ l ∈ proposed := by
  rw [← h.mem_labels_iff hl]
  constructor
  · intro hrow
    obtain ⟨c, hbest, rfl⟩ := Slots.mem_labels_bestOf hrow hl
    have hmem := (Candidate.bestFirst_perm _ _).mem_iff.1 (List.mem_of_mem_take hbest)
    exact List.mem_map_of_mem hmem
  · intro hlabel
    obtain ⟨c, hchosen, rfl⟩ := List.mem_map.1 hlabel
    obtain ⟨c', hbest, hsame⟩ := Slots.mem_labels_bestOf htrue hl
    have hall := (Candidate.bestFirst_perm _ _).mem_iff.1 (List.mem_of_mem_take hbest)
    obtain rfl := f.consistent_candidates q c' hall c (h.stored c hchosen) hsame
    have hkept :
        c' ∈ ((Candidate.bestFirst f.metric (f.candidates q)).filter (· ∈ chosen)).take k :=
      mem_take_filter hbest (decide_eq_true hchosen)
    rw [Slots.labels_bestOf, h.bestFirst_eq]
    exact List.mem_append_left _ (List.mem_map_of_mem hkept)

theorem nodup_row (h : f.Chooses q proposed chosen) :
    ((Slots.bestOf f.metric k chosen).labels.toList.filter fun l => l ≠ noLabel).Nodup := by
  have hbest := Candidate.bestFirst_perm f.metric chosen
  have hnodup : ((Candidate.bestFirst f.metric chosen).map Candidate.label).Nodup := by
    refine List.Nodup.map_on (fun a ha b hb hab => ?_) (hbest.nodup_iff.2 h.nodup)
    exact f.consistent_candidates q a (h.stored a (hbest.mem_iff.1 ha)) b
      (h.stored b (hbest.mem_iff.1 hb)) hab
  have hpadding :
      (List.replicate (k - chosen.length) noLabel).filter (fun l => l ≠ noLabel) = [] := by
    simp
  rw [Slots.labels_bestOf, List.filter_append, hpadding, List.append_nil, List.map_take]
  exact (hnodup.sublist (List.take_sublist _ _)).filter _

theorem proposable_of_mem_row (h : f.Chooses q proposed chosen)
    (hl : l ∈ (Slots.bestOf f.metric k chosen).labels.toList) : l.Proposable f.count := by
  by_cases hno : l = noLabel
  · rw [hno]
    exact Label.proposable_noLabel f.count
  · obtain ⟨c, hbest, rfl⟩ := Slots.mem_labels_bestOf hl hno
    have hmem := (Candidate.bestFirst_perm _ _).mem_iff.1 (List.mem_of_mem_take hbest)
    exact proposable_of_mem (h.stored c hmem)

/-- The row has the hits of any `k` labels that are proposed if they are true. -/
theorem recall_le_row (h : f.Chooses q proposed chosen) {found : List Label}
    (hlen : found.length ≤ k) (hd : (found.filter fun l => l ≠ noLabel).Nodup)
    (hin : ∀ l ∈ found, l ∈ (f.trueRow q k).labels.toList → l ≠ noLabel → l ∈ proposed) :
    recallOf (f.trueRow q k).labels.toList found ≤ recallOf (f.trueRow q k).labels.toList
      (Slots.bestOf f.metric k chosen).labels.toList := by
  refine recallOf_le_recallOf (hits_le_hits ?_ hd ?_ fun hempty l hl => ?_)
  · rwa [Slots.length_labels_bestOf]
  · exact fun l hl htrue hno => (h.mem_row_iff htrue hno).2 (hin l hl htrue hno)
  · exact mem_trueRow_of_empty hempty (h.proposable_of_mem_row hl)

theorem recall_mono (h : f.Chooses q proposed chosen) (h' : f.Chooses q proposed' chosen')
    (hsub : ∀ l ∈ proposed, l ≠ noLabel → l ∈ proposed') :
    recallOf (f.trueRow q k).labels.toList (Slots.bestOf f.metric k chosen).labels.toList ≤
      recallOf (f.trueRow q k).labels.toList
        (Slots.bestOf f.metric k chosen').labels.toList := by
  refine h'.recall_le_row (Nat.le_of_eq Slots.length_labels_bestOf) h.nodup_row ?_
  exact fun l hl htrue hno => hsub l ((h.mem_row_iff htrue hno).1 hl) hno

theorem row_of_all (h : f.Chooses q proposed chosen)
    (hall : ∀ j < f.count, ((j : Nat) : Label) ∈ proposed) :
    Slots.bestOf f.metric k chosen = f.trueRow q k := by
  have hperm : chosen.Perm (f.candidates q) := by
    refine (List.perm_ext_iff_of_nodup h.nodup (f.nodup_candidates q)).2 fun c =>
      ⟨h.stored c, fun hc => ?_⟩
    obtain ⟨j, hj, hlabel⟩ := List.mem_map.1 hc
    have hproposed : c.label ∈ proposed := hlabel ▸ hall j (List.mem_range.1 hj)
    obtain ⟨c', hchosen, hsame⟩ :=
      List.mem_map.1 ((h.mem_labels_iff (label_ne_noLabel hc)).2 hproposed)
    rwa [← f.consistent_candidates q c' (h.stored c' hchosen) c hc hsame]
  have hbest : Candidate.bestFirst f.metric chosen =
      Candidate.bestFirst f.metric (f.candidates q) :=
    Candidate.eq_bestFirst ((Candidate.bestFirst_perm _ _).trans hperm)
      (Candidate.bestFirst_pairwise _ _) (f.consistent_candidates q)
  rw [trueRow, Slots.bestOf, Slots.bestOf, hbest, hperm.length_eq]

end Chooses

end Flat

/-! ## What the base proposes -/

namespace Refined

variable {β : Type} [Index β] {r : Refined β} {x : Floats} {k i : Nat} {out : Slots}

def proposed (r : Refined β) (x : Floats) (k i : Nat) : List Label :=
  let width := candidateCount r.factor k
  let size := x.size / r.exact.dimension * width
  let blank : Slots := ⟨.replicate size .zero, .replicate size noLabel⟩
  ((Index.search r.base x width blank).state.row width i).labels.toList

/-- The row of a search that succeeds has the best of the vectors that the base proposes. -/
theorem row_of_search (hk : 0 < k) (hfits : r.FitsCandidates x k)
    (hok : (Index.search r x k out).answer = .ok ()) (hi : i < x.size / r.exact.dimension)
    (hq : r.exact.Measures (rowOf r.exact.dimension x i))
    (hd : ((r.proposed x k i).filter fun l => l ≠ noLabel).Nodup) :
    ∃ chosen, r.exact.Chooses (rowOf r.exact.dimension x i) (r.proposed x k i) chosen ∧
      (Index.search r x k out).state.row k i = .bestOf r.exact.metric k chosen := by
  obtain ⟨-, nq, hshape, hcase⟩ := hfits.search_ok hok
  have hnq := hshape.eq_div
  rw [← hnq] at hi
  rcases hcase with ⟨hempty, -⟩ | ⟨blank, found, hscratch, hfound, hsize, hl, hdone⟩
  · exact absurd hempty (Nat.mul_ne_zero (Nat.ne_of_gt (Nat.zero_lt_of_lt hi)) hk.ne')
  have hproposed : r.proposed x k i =
      (found.row (candidateCount r.factor k) i).labels.toList := by
    unfold proposed
    dsimp only
    rw [← hnq, ← (scratch_eq_ok_iff.1 hscratch).2, hfound]
    rfl
  have hlabels : (r.proposals x (candidateCount r.factor k) found i).map Candidate.label =
      (r.proposed x k i).filter fun l => l ≠ noLabel := by
    rw [proposals, hproposed, List.map_map]
    exact List.map_id _
  have hstored : ∀ c ∈ r.proposals x (candidateCount r.factor k) found i,
      c ∈ r.exact.candidates (rowOf r.exact.dimension x i) := by
    intro c hc
    obtain ⟨l, hlabel, rfl⟩ := List.mem_map.1 hc
    obtain ⟨hrow, hno⟩ := List.mem_filter.1 hlabel
    exact Flat.candidateOf_mem (hl l (Slots.mem_labels_of_row hrow)) (of_decide_eq_true hno)
  refine ⟨_, ⟨(hlabels ▸ hd).of_map, hstored, hlabels⟩, ?_⟩
  rw [hdone]
  exact rank_rescored_row (le_candidateCount r.factor k) hsize hshape.size hnq hi
    fun c hc => hq c (hstored c hc)

theorem row_of_flat (hfits : r.FitsCandidates x k)
    (hok : (Index.search r x k out).answer = .ok ()) (hi : i < x.size / r.exact.dimension)
    (hq : r.exact.Measures (rowOf r.exact.dimension x i)) :
    (Index.search r.exact x k out).answer = .ok () ∧
      (Index.search r.exact x k out).state.row k i =
        r.exact.trueRow (rowOf r.exact.dimension x i) k := by
  obtain ⟨-, nq, hshape, -⟩ := hfits.search_ok hok
  rw [Flat.search_of_shape _ hshape.checkShape, Flat.trueRow, Slots.bestOf, Flat.length_candidates]
  exact ⟨rfl, r.exact.nearest_row hi (hshape.room (hshape.eq_div ▸ hi)) hq⟩

/-- The base may be any index, and the candidates have a number of 64 bits, as those for one query
always do. Where the base proposes no vector twice, and no distance is NaN, a true neighbour is in
the row of a search that succeeds exactly if the base proposes it. So no `k` of the
proposals have a greater recall than the row, another factor under which the base proposes no less
does not lower it, and the row is the true one once every vector is proposed. The search succeeds
only if all proposals are in range. -/
theorem search_finds_proposed (r : Refined β) {x : Floats} {k i : Nat} {out : Slots} (hk : 0 < k)
    (hfits : r.FitsCandidates x k) (hok : (Index.search r x k out).answer = .ok ())
    (hi : i < x.size / r.exact.dimension)
    (hq : r.exact.Measures (rowOf r.exact.dimension x i))
    (hd : ((r.proposed x k i).filter fun l => l ≠ noLabel).Nodup) :
    let truth := (Index.search r.exact x k out).state.row k i
    let row := (Index.search r x k out).state.row k i
    (Index.search r.exact x k out).answer = .ok () ∧
    (∀ l ∈ truth.labels.toList, l ≠ noLabel →
      (l ∈ row.labels.toList ↔ l ∈ r.proposed x k i)) ∧
    (∀ picked : List Label, picked.Subperm (r.proposed x k i) → picked.length ≤ k →
      recallOf truth.labels.toList picked ≤ recallOf truth.labels.toList row.labels.toList) ∧
    (∀ factor, let other : Refined β := { r with factor }
      other.FitsCandidates x k → (Index.search other x k out).answer = .ok () →
      ((other.proposed x k i).filter fun l => l ≠ noLabel).Nodup →
      (∀ l ∈ r.proposed x k i, l ≠ noLabel → l ∈ other.proposed x k i) →
      recallOf truth.labels.toList row.labels.toList ≤ recallOf truth.labels.toList
        ((Index.search other x k out).state.row k i).labels.toList) ∧
    ((∀ j < r.exact.count, ((j : Nat) : Label) ∈ r.proposed x k i) → row = truth) := by
  intro truth row
  obtain ⟨hflat, htruth⟩ := row_of_flat hfits hok hi hq
  obtain ⟨chosen, hchosen, hrow⟩ := row_of_search hk hfits hok hi hq hd
  dsimp only [truth, row]
  rw [htruth, hrow]
  refine ⟨hflat, fun l hl hno => hchosen.mem_row_iff hl hno, fun picked hpicked hlen => ?_, ?_,
    fun hall => hchosen.row_of_all hall⟩
  · obtain ⟨reordered, hperm, hsub⟩ := hpicked.filter fun l => l ≠ noLabel
    refine hchosen.recall_le_row hlen (hperm.nodup_iff.1 (hd.sublist hsub)) ?_
    exact fun l hl _ _ => hpicked.subset hl
  · intro factor hfits' hok' hd' hnested
    obtain ⟨chosen', hchosen', hrow'⟩ :=
      row_of_search (r := { r with factor }) hk hfits' hok' hi hq hd'
    rw [hrow']
    exact hchosen.recall_mono hchosen' hnested

/-- On a grid two vectors tie, and the nearer one has the greater label: it is lost at factor one,
and found at factor two. -/
theorem search_finds_proposed_grid :
    let two : Binary32 := .ofNat 2
    let exact : Flat := ⟨⟨1, #[.zero, .one], by decide, by decide⟩, .l2⟩
    let coarse : Flat := ⟨⟨1, #[.zero, two], by decide, by decide⟩, .l2⟩
    let narrow : Refined Grid := ⟨⟨coarse, two, true, false, none⟩, exact, .one, true⟩
    let wide : Refined Grid := { narrow with factor := two }
    let out : Slots := ⟨#[.one], #[9]⟩
    (Index.search narrow #[.one] 1 out).answer = .ok () ∧
      (Index.search wide #[.one] 1 out).answer = .ok () ∧
      (Index.search exact #[.one] 1 out).state.row 1 0 = ⟨#[.zero], #[1]⟩ ∧
      narrow.proposed #[.one] 1 0 = [0] ∧ wide.proposed #[.one] 1 0 = [0, 1] ∧
      1 ∉ ((Index.search narrow #[.one] 1 out).state.row 1 0).labels.toList ∧
      (Index.search wide #[.one] 1 out).state.row 1 0 = ⟨#[.zero], #[1]⟩ := by
  intro two exact coarse narrow wide out
  have hok : (Index.search narrow #[.one] 1 out).answer = .ok () := by decide +kernel
  have hok' : (Index.search wide #[.one] 1 out).answer = .ok () := by decide +kernel
  have htruth : (Index.search exact #[.one] 1 out).state.row 1 0 = ⟨#[.zero], #[1]⟩ := by
    decide +kernel
  have hproposed : narrow.proposed #[.one] 1 0 = [0] := by decide +kernel
  have hproposed' : wide.proposed #[.one] 1 0 = [0, 1] := by decide +kernel
  have hfits : narrow.FitsCandidates #[.one] 1 := .of_one (by decide) (by decide)
  have hfits' : wide.FitsCandidates #[.one] 1 := .of_one (by decide) (by decide)
  have hfinds := (search_finds_proposed narrow Nat.one_pos hfits hok (i := 0) (by decide)
    (by decide) (by rw [hproposed]; decide)).2.1
  have hcover := (search_finds_proposed wide Nat.one_pos hfits' hok' (i := 0) (by decide)
    (by decide) (by rw [hproposed']; decide)).2.2.2.2
  refine ⟨hok, hok', htruth, hproposed, hproposed', fun hrow => ?_, ?_⟩
  · have hin := (hfinds 1 (by rw [htruth]; decide) (by decide)).1 hrow
    rw [hproposed] at hin
    exact absurd hin (by decide)
  · have hcount : wide.exact.count = 2 := by decide
    have hall : ∀ j < 2, ((j : Nat) : Label) ∈ ([0, 1] : List Label) := by decide
    refine (hcover ?_).trans htruth
    rwa [hcount, hproposed']

end Refined

end Neighbors
