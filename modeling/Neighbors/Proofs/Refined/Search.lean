import Neighbors.Index.Grid
import Neighbors.Index.Refined
import Neighbors.Proofs.Failure
import Neighbors.Proofs.Rescore

/-!
# Search in a refined index

The base may be any index: all that counts are the labels it writes for `Refined.candidateCount`
candidates per query. Without NaN a row has the best of them in the order of the metric by exact
distance, and a label out of range fails the whole search (`search_ranks_proposals`).
-/

namespace Neighbors

theorem Metric.isNumber_worst (metric : Metric) (l : Label) :
    (⟨metric.worst, l⟩ : Candidate).IsNumber := by
  show ¬metric.worst.isNaN = true
  cases metric <;> decide

theorem Slots.eq_of_hasSize_zero {a b : Slots} (ha : a.HasSize 0) (hb : b.HasSize 0) : a = b := by
  obtain ⟨had, hal⟩ := ha
  obtain ⟨hbd, hbl⟩ := hb
  cases a
  cases b
  simp only [Array.size_eq_zero_iff] at *
  subst_vars
  rfl

namespace Refined

variable {β : Type} {r : Refined β} {metric : Metric} {x : Floats} {k nq width i : Nat}
  {out blank found : Slots}

theorem le_candidateCount (factor : Binary32) (k : Nat) : k ≤ candidateCount factor k :=
  Nat.le_max_right _ k

/-! ## Rows of ranked candidates -/

theorem length_rankRow {cs : Slots} {n : Nat} (hout : out.HasSize n) (i : Nat) :
    (rankRow metric k width cs out (min k (n - i * k)) i).length = min k (n - i * k) := by
  unfold rankRow
  split
  · exact TopK.length_finish_ofCandidates _ _ _
  · have hend : (i + 1) * k = i * k + k := Nat.succ_mul i k
    simp only [Slots.candidates, Slots.row, List.length_zipWith, Array.length_toList,
      Array.size_extract, hout.distances, hout.labels, hend]
    omega

theorem hasSize_rank {cs : Slots} {n : Nat} (hout : out.HasSize n) (hn : n ≤ nq * k) :
    (rank metric nq k width cs out).HasSize n := by
  rw [rank, hout.distances]
  exact Slots.hasSize_fillRows (fun i _ => by rw [List.getElem_range]; exact length_rankRow hout i)
    (by rwa [List.length_range])

theorem rankRow_eq {cs : Slots} (hcs : cs.HasSize (nq * width)) (hi : i < nq) (hpos : 0 < width)
    (out : Slots) (room : Nat) : rankRow metric k width cs out room i =
      (TopK.ofCandidates metric room (cs.row width i).candidates).finish := by
  rw [rankRow, hcs.distances, if_pos (Nat.mul_lt_mul_of_pos_right hi hpos)]

/-- Where there are candidates for all queries, every row has the best of its own. -/
theorem rank_row {cs : Slots} (hwidth : k ≤ width) (hcs : cs.HasSize (nq * width))
    (hout : out.HasSize (nq * k)) (hi : i < nq) : (rank metric nq k width cs out).row k i =
      .ofCandidates (TopK.ofCandidates metric k (cs.row width i).candidates).finish := by
  rcases Nat.eq_zero_or_pos k with rfl | hk
  · have hnone : (rank metric nq 0 width cs out).HasSize (nq * 0) :=
      hasSize_rank hout (Nat.le_refl _)
    exact Slots.eq_of_hasSize_zero (hnone.row hi)
      ⟨by rw [Slots.size_distances_ofCandidates, TopK.length_finish_ofCandidates],
        by rw [Slots.size_labels_ofCandidates, TopK.length_finish_ofCandidates]⟩
  · rw [rank, hout.distances, Slots.row_fillRows (fun j _ => by
        rw [List.getElem_range]; exact length_rankRow hout j) (by rwa [List.length_range])
      (Nat.mul_le_mul_right k hi), List.getElem_range, rankRow_eq hcs hi (hk.trans_le hwidth)]

/-- Where there are candidates for all queries, nothing is left of the slots from before. -/
theorem rank_other {cs other : Slots} (hwidth : k ≤ width) (hcs : cs.HasSize (nq * width))
    (hout : out.HasSize (nq * k)) (hother : other.HasSize (nq * k)) :
    rank metric nq k width cs other = rank metric nq k width cs out := by
  rcases Nat.eq_zero_or_pos k with rfl | hk
  · exact Slots.eq_of_hasSize_zero (hasSize_rank hother (Nat.le_refl _))
      (hasSize_rank hout (Nat.le_refl _))
  · rw [rank, rank, hout.distances, hother.distances]
    refine Slots.fillRows_congr fun i hi room => ?_
    rw [rankRow_eq hcs (List.mem_range.1 hi) (hk.trans_le hwidth),
      rankRow_eq hcs (List.mem_range.1 hi) (hk.trans_le hwidth)]

/-- The candidates for query `i` in the slots of a base, at their exact distances. -/
def proposals (r : Refined β) (x : Floats) (width : Nat) (found : Slots) (i : Nat) :
    List Candidate :=
  ((found.row width i).labels.toList.filter fun l => l ≠ noLabel).map
    (r.exact.candidateOf (rowOf r.exact.dimension x i))

theorem hasSize_rescored {n : Nat} (hsize : found.HasSize n) :
    (r.exact.rescored x width found).HasSize n :=
  ⟨by rw [Flat.size_distances_rescored, hsize.distances], hsize.labels⟩

theorem rank_rescored_row (hwidth : k ≤ width) (hsize : found.HasSize (nq * width))
    (hout : out.HasSize (nq * k)) (hnq : nq = x.size / r.exact.dimension) (hi : i < nq)
    (hn : ∀ c ∈ r.proposals x width found i, c.IsNumber) :
    (rank r.exact.metric nq k width (r.exact.rescored x width found) out).row k i = .ofCandidates
      ((Candidate.bestFirst r.exact.metric (r.proposals x width found i)).take k ++
        List.replicate (k - (r.proposals x width found i).length) .padding) := by
  have hfilter := r.exact.filter_isLabelled_map_candidateOf (rowOf r.exact.dimension x i)
    (found.row width i).labels.toList
  have hnumbers : ∀ c ∈ (found.row width i).labels.toList.map
      (r.exact.candidateOf (rowOf r.exact.dimension x i)), c.IsNumber := by
    intro c hc
    obtain ⟨l, hl, rfl⟩ := List.mem_map.1 hc
    by_cases hlabel : l = noLabel
    · rw [Flat.candidateOf, if_pos hlabel]
      exact r.exact.metric.isNumber_worst l
    · exact hn _ (List.mem_map_of_mem (List.mem_filter.2 ⟨hl, by simpa using hlabel⟩))
  have hfinish := TopK.finish_ofCandidates r.exact.metric k hnumbers
    (by rw [hfilter]; exact r.exact.consistent_map_candidateOf _ _)
  rw [rank_row hwidth (hasSize_rescored hsize) hout hi, Flat.rescored_row hsize hnq hi, hfinish,
    hfilter]
  rfl

/-! ## Room for candidates -/

theorem scratch_eq_ok_iff {size : Nat} : scratch size = .ok blank ↔
    8 * size ≤ byteLimit ∧ blank = ⟨.replicate size .zero, .replicate size noLabel⟩ := by
  unfold scratch
  split
  · next hmuch =>
    refine iff_of_false nofun fun h => ?_
    omega
  · next hroom =>
    constructor
    · intro h
      exact ⟨by omega, (Except.ok.inj h).symm⟩
    · rintro ⟨-, rfl⟩
      rfl

theorem le_limit_of_scratch {size : Nat} (h : scratch size = .ok blank) : size ≤ Count.limit := by
  have hbytes := (scratch_eq_ok_iff.1 h).1
  have hlimit : byteLimit ≤ Count.limit := by decide
  omega

/-! ## Calls of the base -/

variable [Index β]

theorem search_of_empty (ht : r.trained = true)
    (hshape : Index.checkShape r.exact.dimension x k out = .ok nq) (hempty : nq * k = 0) :
    Index.search r x k out = .done out := by
  show Outcome.replace out (r.search x k out) = _
  unfold Refined.search
  rw [ht, hshape]
  simp only [bind, Except.bind, Bool.not_true, Bool.false_eq_true, if_false]
  rw [if_pos (Nat.mul_eq_zero.1 hempty)]
  rfl

theorem search_of_candidates (ht : r.trained = true)
    (hshape : Index.checkShape r.exact.dimension x k out = .ok nq) (hpos : nq * k ≠ 0) :
    r.search x k out = (r.candidates x nq (candidateCount r.factor k)).map fun cs =>
      rank r.exact.metric nq k (candidateCount r.factor k) cs out := by
  have hgo : ¬(nq = 0 ∨ k = 0) := by
    rintro (rfl | rfl)
    · exact hpos (Nat.zero_mul k)
    · exact hpos (Nat.mul_zero nq)
  unfold Refined.search
  rw [ht, hshape]
  simp only [bind, Except.bind, Bool.not_true, Bool.false_eq_true, if_false, if_neg hgo]
  cases r.candidates x nq (candidateCount r.factor k) <;> rfl

theorem candidates_of_base (hscratch : scratch (Count.mul nq width) = .ok blank)
    (hbase : (Index.search r.base x width blank).answer = .ok ()) :
    r.candidates x nq width =
      ((r.exact.rescore x width (Index.search r.base x width blank).state).answer.map fun _ =>
        (r.exact.rescore x width (Index.search r.base x width blank).state).state) := by
  unfold candidates
  rw [hscratch]
  simp only [bind, Except.bind, hbase]

omit [Index β] in
theorem checkShape_base (hshape : Index.checkShape r.exact.dimension x k out = .ok nq)
    (hsize : found.HasSize (Count.mul nq width)) :
    Index.checkShape r.exact.dimension x width found = .ok nq :=
  Index.checkShape_eq_ok_iff.2 ⟨Index.rowCount_of_checkShape hshape, hsize⟩

omit [Index β] in
theorem hasSize_of_checkShape_empty (hshape : Index.checkShape r.exact.dimension x k out = .ok nq)
    (hempty : nq * k = 0) : out.HasSize 0 := by
  have hsize := (Index.checkShape_eq_ok_iff.1 hshape).2
  rwa [Count.mul, hempty] at hsize

theorem search_of_proposable (ht : r.trained = true)
    (hshape : Index.checkShape r.exact.dimension x k out = .ok nq)
    (hscratch : scratch (Count.mul nq (candidateCount r.factor k)) = .ok blank)
    (hbase : Index.search r.base x (candidateCount r.factor k) blank = .done found)
    (hsize : found.HasSize (Count.mul nq (candidateCount r.factor k)))
    (hl : ∀ l ∈ found.labels, l.Proposable r.exact.count) :
    Index.search r x k out = .done (rank r.exact.metric nq k (candidateCount r.factor k)
      (r.exact.rescored x (candidateCount r.factor k) found) out) := by
  by_cases hpos : nq * k = 0
  · have hempty := hasSize_of_checkShape_empty hshape hpos
    rw [search_of_empty ht hshape hpos]
    exact congrArg Outcome.done
      (Slots.eq_of_hasSize_zero hempty (hasSize_rank hempty (Nat.zero_le _)))
  · have hrescore := Flat.rescore_of_proposable (checkShape_base hshape hsize) hl
    have hcandidates := candidates_of_base hscratch (by rw [hbase]; rfl)
    rw [hbase] at hcandidates
    show Outcome.replace out (r.search x k out) = _
    rw [search_of_candidates ht hshape hpos, hcandidates]
    show Outcome.replace out (Except.map _ ((r.exact.rescore x _ found).answer.map fun _ =>
      (r.exact.rescore x _ found).state)) = _
    rw [hrescore]
    rfl

/-- Room for the candidates of all queries is room of 64 bits. -/
theorem search_of_scratch (ht : r.trained = true)
    (hshape : Index.checkShape r.exact.dimension x k out = .ok nq)
    (hscratch : scratch (nq * candidateCount r.factor k) = .ok blank)
    (hbase : Index.search r.base x (candidateCount r.factor k) blank = .done found)
    (hsize : found.HasSize (nq * candidateCount r.factor k))
    (hl : ∀ l ∈ found.labels, l.Proposable r.exact.count) :
    Index.search r x k out = .done (rank r.exact.metric nq k (candidateCount r.factor k)
      (r.exact.rescored x (candidateCount r.factor k) found) out) := by
  have hmul := Count.mul_eq (le_limit_of_scratch hscratch)
  exact search_of_proposable ht hshape (hmul.symm ▸ hscratch) hbase (hmul.symm ▸ hsize) hl

theorem search_of_stray (ht : r.trained = true)
    (hshape : Index.checkShape r.exact.dimension x k out = .ok nq) (hk : 0 < k)
    (hscratch : scratch (Count.mul nq (candidateCount r.factor k)) = .ok blank)
    (hbase : Index.search r.base x (candidateCount r.factor k) blank = .done found)
    (hsize : found.HasSize (Count.mul nq (candidateCount r.factor k)))
    (hl : ∃ l ∈ found.labels, ¬l.Proposable r.exact.count) :
    ∃ (j : Nat) (hj : j < found.labels.size), ¬found.labels[j].Proposable r.exact.count ∧
      (∀ (i : Nat) (hi : i < j), found.labels[i].Proposable r.exact.count) ∧
      Index.search r x k out = .fail (.labelOutOfRange found.labels[j] r.exact.count) out := by
  obtain ⟨j, hj, hstray, hbefore, hrescore⟩ :=
    Flat.rescore_of_stray (checkShape_base hshape hsize) hl
  refine ⟨j, hj, hstray, hbefore, ?_⟩
  have hnq : nq ≠ 0 := by
    rintro rfl
    rw [hsize.labels, Count.mul, Nat.zero_mul] at hj
    exact Nat.not_lt_zero j hj
  have hcandidates := candidates_of_base hscratch (by rw [hbase]; rfl)
  rw [hbase] at hcandidates
  show Outcome.replace out (r.search x k out) = _
  rw [search_of_candidates ht hshape (Nat.mul_ne_zero hnq hk.ne'), hcandidates]
  show Outcome.replace out (Except.map _ ((r.exact.rescore x _ found).answer.map fun _ =>
    (r.exact.rescore x _ found).state)) = _
  rw [hrescore]
  rfl

theorem candidates_ok {cs : Slots} (h : r.candidates x nq width = .ok cs) :
    ∃ blank found, scratch (Count.mul nq width) = .ok blank ∧
      Index.search r.base x width blank = .done found ∧
      (r.exact.rescore x width found).answer = .ok () := by
  obtain ⟨blank, hscratch, hrest⟩ := bind_eq_ok_iff.1 h
  obtain ⟨_, hbase, hscored⟩ := bind_eq_ok_iff.1 hrest
  refine ⟨blank, _, hscratch, Outcome.eq_done hbase, ?_⟩
  dsimp only at hscored
  cases hanswer : (r.exact.rescore x width (Index.search r.base x width blank).state).answer with
  | ok u => rfl
  | error e =>
    rw [hanswer] at hscored
    cases hscored

/-- All that stands behind a search that succeeds. -/
theorem search_ok (h : (Index.search r x k out).answer = .ok ()) :
    r.trained = true ∧ ∃ nq, Index.checkShape r.exact.dimension x k out = .ok nq ∧
      (nq * k = 0 ∧ Index.search r x k out = .done out ∨
      ∃ blank found, scratch (Count.mul nq (candidateCount r.factor k)) = .ok blank ∧
        Index.search r.base x (candidateCount r.factor k) blank = .done found ∧
        found.HasSize (Count.mul nq (candidateCount r.factor k)) ∧
        (∀ l ∈ found.labels, l.Proposable r.exact.count) ∧
        Index.search r x k out = .done (rank r.exact.metric nq k (candidateCount r.factor k)
          (r.exact.rescored x (candidateCount r.factor k) found) out)) := by
  change (Outcome.replace out (r.search x k out)).answer = _ at h
  cases ht : r.trained with
  | false =>
    unfold Refined.search at h
    rw [ht] at h
    cases h
  | true =>
    cases hshape : Index.checkShape r.exact.dimension x k out with
    | error e =>
      unfold Refined.search at h
      rw [ht, hshape] at h
      cases h
    | ok nq =>
      refine ⟨rfl, nq, rfl, ?_⟩
      by_cases hpos : nq * k = 0
      · exact .inl ⟨hpos, search_of_empty ht hshape hpos⟩
      · right
        rw [search_of_candidates ht hshape hpos] at h
        cases hcandidates : r.candidates x nq (candidateCount r.factor k) with
        | error e =>
          rw [hcandidates] at h
          cases h
        | ok cs =>
          obtain ⟨blank, found, hscratch, hbase, hrescore⟩ := candidates_ok hcandidates
          obtain ⟨⟨n, hn⟩, hl⟩ := Flat.rescore_ok hrescore
          have hrows := Index.rowCount_of_checkShape hshape
          obtain ⟨hrows', hsize⟩ := Index.checkShape_eq_ok_iff.1 hn
          rw [hrows'] at hrows
          cases hrows
          exact ⟨blank, found, hscratch, hbase, hsize, hl,
            search_of_proposable ht hshape hscratch hbase hsize hl⟩

/-- The candidates for all queries have a number of 64 bits, so that each of them has a row. -/
def FitsCandidates {β : Type} (r : Refined β) (x : Floats) (k : Nat) : Prop :=
  x.size / r.exact.dimension * candidateCount r.factor k ≤ Count.limit

instance {β : Type} (r : Refined β) (x : Floats) (k : Nat) : Decidable (FitsCandidates r x k) :=
  inferInstanceAs (Decidable (_ ≤ _))

omit [Index β] in
theorem FitsCandidates.wellShaped (h : FitsCandidates r x k)
    (hshape : Index.checkShape r.exact.dimension x k out = .ok nq) :
    Index.WellShaped r.exact.dimension x k out nq :=
  .of_checkShape hshape ((Nat.mul_le_mul_left _ (le_candidateCount r.factor k)).trans h)

/-- All that stands behind a search that succeeds with candidates for all queries. -/
theorem FitsCandidates.search_ok (hfits : FitsCandidates r x k)
    (h : (Index.search r x k out).answer = .ok ()) :
    r.trained = true ∧ ∃ nq, Index.WellShaped r.exact.dimension x k out nq ∧
      (nq * k = 0 ∧ Index.search r x k out = .done out ∨
      ∃ blank found, scratch (nq * candidateCount r.factor k) = .ok blank ∧
        Index.search r.base x (candidateCount r.factor k) blank = .done found ∧
        found.HasSize (nq * candidateCount r.factor k) ∧
        (∀ l ∈ found.labels, l.Proposable r.exact.count) ∧
        Index.search r x k out = .done (rank r.exact.metric nq k (candidateCount r.factor k)
          (r.exact.rescored x (candidateCount r.factor k) found) out)) := by
  obtain ⟨ht, nq, hshape, hcase⟩ := Refined.search_ok h
  refine ⟨ht, nq, hfits.wellShaped hshape, ?_⟩
  rw [FitsCandidates, ← Index.eq_div_of_checkShape hshape] at hfits
  rwa [Count.mul_eq hfits] at hcase

/-- Any base will do, and only its labels count. Where they name stored vectors or none, the search
succeeds, and the row of a query without NaN has the best `k` of its candidates by exact distance,
equal distances by label, and then padding. Where a label is out of range the search fails with the
first one and writes nothing. That the base fills the slots it is given is all that is asked. -/
theorem search_ranks_proposals (ht : r.trained = true)
    (hshape : Index.checkShape r.exact.dimension x k out = .ok nq) (hk : 0 < k)
    (hscratch : scratch (nq * candidateCount r.factor k) = .ok blank)
    (hbase : (Index.search r.base x (candidateCount r.factor k) blank).answer = .ok ())
    (hsize : (Index.search r.base x (candidateCount r.factor k) blank).state.HasSize
      (nq * candidateCount r.factor k)) :
    let width := candidateCount r.factor k
    let found := (Index.search r.base x width blank).state
    ((∀ l ∈ found.labels, l.Proposable r.exact.count) →
      ∃ ranked : Slots, Index.search r x k out = .done ranked ∧ ranked.HasSize (nq * k) ∧
        ∀ i < nq, (∀ c ∈ r.proposals x width found i, c.IsNumber) →
          ranked.row k i = .ofCandidates
            ((Candidate.bestFirst r.exact.metric (r.proposals x width found i)).take k ++
              List.replicate (k - (r.proposals x width found i).length) .padding)) ∧
    ((∃ l ∈ found.labels, ¬l.Proposable r.exact.count) →
      ∃ (j : Nat) (hj : j < found.labels.size), ¬found.labels[j].Proposable r.exact.count ∧
        (∀ (i : Nat) (hi : i < j), found.labels[i].Proposable r.exact.count) ∧
        Index.search r x k out = .fail (.labelOutOfRange found.labels[j] r.exact.count) out) := by
  intro width found
  have hdone := Outcome.eq_done hbase
  have hnq := Index.eq_div_of_checkShape hshape
  have hfits := le_limit_of_scratch hscratch
  have hmul := Count.mul_eq hfits
  have hout := (FitsCandidates.wellShaped (show _ ≤ _ from hnq ▸ hfits) hshape).size
  refine ⟨fun hl => ?_, fun hl => search_of_stray ht hshape hk (hmul.symm ▸ hscratch) hdone
    (hmul.symm ▸ hsize) hl⟩
  refine ⟨_, search_of_scratch ht hshape hscratch hdone hsize hl,
    hasSize_rank hout (Nat.le_refl _), fun i hi hn => ?_⟩
  exact rank_rescored_row (le_candidateCount r.factor k) hsize hout hnq hi hn

/-- A base that names one vector twice, in place of an empty slot: both are ranked. -/
theorem search_ranks_proposals_repeated :
    let exact : Flat := ⟨⟨1, #[.one, .zero, .one], by decide, by decide⟩, .l2⟩
    let r : Refined Grid := ⟨⟨exact, .zero, true, false, some 0⟩, exact, .ofNat 2, true⟩
    let out : Slots := ⟨.replicate 2 .one, .replicate 2 9⟩
    let blank : Slots := ⟨.replicate 4 .zero, .replicate 4 noLabel⟩
    Index.checkShape r.exact.dimension #[.one] 2 out = .ok 1 ∧
      (Index.search r.base #[.one] 4 blank).state.labels = #[0, 2, 1, 0] ∧
      ∃ ranked : Slots, Index.search r #[.one] 2 out = .done ranked ∧
        ranked.row 2 0 = .ofCandidates [⟨.zero, 0⟩, ⟨.zero, 0⟩] := by
  intro exact r out blank
  have hshape : Index.checkShape r.exact.dimension #[.one] 2 out = .ok 1 := by decide
  have hlabels : (Index.search r.base #[.one] 4 blank).state.labels = #[0, 2, 1, 0] := by
    decide +kernel
  have hscratch : scratch (1 * candidateCount r.factor 2) = .ok blank := by decide +kernel
  have hproposals : r.proposals #[.one] 4 (Index.search r.base #[.one] 4 blank).state 0 =
      [⟨.zero, 0⟩, ⟨.zero, 2⟩, ⟨.one, 1⟩, ⟨.zero, 0⟩] := by decide +kernel
  have hbest : [⟨.zero, 0⟩, ⟨.zero, 0⟩, ⟨.zero, 2⟩, ⟨.one, 1⟩] =
      Candidate.bestFirst r.exact.metric [⟨.zero, 0⟩, ⟨.zero, 2⟩, ⟨.one, 1⟩, ⟨.zero, 0⟩] :=
    Candidate.eq_bestFirst (by decide) (by decide) (by decide)
  obtain ⟨ranked, hranked, -, hrows⟩ := (search_ranks_proposals (r := r) rfl hshape
    Nat.two_pos hscratch (by decide +kernel) ⟨by decide +kernel, by decide +kernel⟩).1
    (by decide +kernel)
  have hrow := hrows 0 Nat.one_pos
  rw [show candidateCount r.factor 2 = 4 by decide +kernel, hproposals, ← hbest] at hrow
  exact ⟨hshape, hlabels, ranked, hranked, (hrow (by decide)).trans (by decide)⟩

end Refined

end Neighbors
