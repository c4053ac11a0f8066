import Neighbors.Index.Shifted
import Neighbors.Proofs.Sized
import Neighbors.Proofs.SortedAxis.Coverage

/-!
# What a search finds can be reconstructed

A search that succeeds writes labels of stored vectors and of empty slots only, whatever the
distances are: a flat or shifted index takes them from its scan, a sorted one from its order, and a
refined one refuses a base that writes others. As long as the numbers of slots have 64 bits, or the
slots held no stray labels before, a search with reconstruction therefore does not fail after its
search (`Index.ReconstructsFound.not_failsAfterSearch`).
-/

namespace Neighbors

/-! ## Rows of a collector -/

theorem TopK.mem_finish_ofCandidates {metric : Metric} {k : Nat} {cs : List Candidate}
    {c : Candidate} (h : c ∈ (ofCandidates metric k cs).finish) : c = .padding ∨ c ∈ cs := by
  rcases List.mem_append.1 h with hkept | hpad
  · right
    have hperm := extend_perm (empty metric k) cs
    have hmem := List.mem_append_left ((empty metric k).droppedOf cs)
      ((sorted_perm _).mem_iff.1 hkept)
    have hoffered := hperm.mem_iff.1 hmem
    exact List.mem_of_mem_filter (by simpa [empty] using hoffered)
  · exact .inl (List.eq_of_mem_replicate hpad)

theorem Slots.label_mem_of_mem_row {s : Slots} {k i : Nat} {c : Candidate}
    (h : c ∈ (s.row k i).candidates) : c.label ∈ s.labels := by
  rw [candidates, ← List.map_uncurry_zip_eq_zipWith] at h
  obtain ⟨⟨distance, l⟩, hzip, rfl⟩ := List.mem_map.1 h
  exact mem_labels_of_row (List.of_mem_zip hzip).2

/-- A row of a collector names nothing that the collector was not offered. -/
theorem TopK.proposable_of_mem_finish {metric : Metric} {k count : Nat} {cs : List Candidate}
    (h : ∀ c ∈ cs, c.label.Proposable count) {c : Candidate}
    (hc : c ∈ (ofCandidates metric k cs).finish) : c.label.Proposable count := by
  rcases mem_finish_ofCandidates hc with rfl | hmem
  · exact Label.proposable_noLabel count
  · exact h c hmem

theorem Scan.proposable_of_mem_best {metric : Metric} {queries base : Floats} {d k size : Nat}
    {score : Floats → Floats → Nat → Binary32} {l : Label}
    (h : l ∈ (best metric queries base d k size score).labels) : l.Proposable (base.size / d) := by
  obtain ⟨room, q, -, c, hrow, rfl⟩ := Slots.exists_of_mem_fillRows h
  refine TopK.proposable_of_mem_finish (fun c hc => ?_) hrow
  obtain ⟨j, hj, rfl⟩ := List.mem_map.1 hc
  exact Label.proposable_natCast (List.mem_range.1 hj)

/-! ## Rows of the sorted index -/

namespace SortedAxis

variable {s : SortedAxis} {x : Floats} {q : Binary32} {k : Nat} {out : Slots} {l : Label}

theorem lt_of_mem_positions {i : Nat} (hi : i ∈ s.positions k q) : i < s.order.size := by
  by_cases hu : Frontier.Undecided s.valueAt q s.order.size
  · rw [positions, Frontier.given_undecided k hu] at hi
    rw [List.eq_of_mem_replicate hi, hu.1]
    exact Nat.one_pos
  · exact (Frontier.given_locate k hu).2.1 i hi

theorem proposable_of_mem_searchRow (h : Argsort s.values s.count s.order) {c : Candidate}
    (hc : c ∈ s.searchRow k q) : c.label.Proposable s.count := by
  rw [searchRow_eq] at hc
  rcases List.mem_append.1 hc with hrow | hpad
  · obtain ⟨i, hi, rfl⟩ := List.mem_map.1 hrow
    exact Label.proposable_natCast (labelAt_lt h (lt_of_mem_positions hi))
  · rw [List.eq_of_mem_replicate hpad]
    exact Label.proposable_noLabel s.count

end SortedAxis

/-! ## Searches with reconstruction -/

theorem Flat.reconstruct_of_isStored (f : Flat) {l : Label} {out : Floats}
    (hl : l.isStored f.count = true) (hout : out.size = f.dimension) :
    (Outcome.replace out (f.reconstruct l out)).answer = .ok () := by
  unfold Flat.reconstruct
  rw [hl, hout]
  simp only [Bool.not_true, Bool.false_eq_true, if_false, ne_eq, not_true_eq_false]
  rfl

namespace Index

variable {σ : Type} [Index σ] [Sized σ]

/-- A search that succeeds leaves labels of stored vectors and of empty slots. Only where its
numbers of slots have more than 64 bits may some of them be from before it. Every stored vector can
be reconstructed. -/
structure ReconstructsFound (s : σ) : Prop extends KeepsBuffers s where
  found : ∀ x k out, (Sized.fits s x k ∨ ∀ l ∈ out.labels, l.Proposable (count s)) →
    (Index.search s x k out).answer = .ok () →
    ∀ l ∈ (Index.search s x k out).state.labels, l.Proposable (count s)
  stored : ∀ (l : Label) out, l.isStored (count s) = true → out.size = dimension s →
    (Index.reconstruct s l out).answer = .ok ()

theorem ReconstructsFound.not_failsAfterSearch {s : σ} (hs : ReconstructsFound s) {x : Floats}
    {k : Nat} {out : Slots} {e : Error}
    (hout : Sized.fits s x k ∨ ∀ l ∈ out.labels, l.Proposable (count s))
    (hok : (Index.search s x k out).answer = .ok ()) :
    ¬FailsAfterSearch s (Index.search s x k out).state e := by
  rintro ⟨l, hl, hne, hfail⟩
  have hstored : l.isStored (count s) = true :=
    (Label.proposable_iff.1 (hs.found x k out hout hok l hl)).resolve_left hne
  rcases hfail with ⟨hstray, -⟩ | hlost
  · rw [hstored] at hstray
    cases hstray
  · rw [hs.stored l _ hstored Array.size_replicate] at hlost
    cases hlost

end Index

/-! ## The indexes -/

theorem Flat.reconstructsFound (f : Flat) : Index.ReconstructsFound f where
  search x k out := Outcome.atomic_replace out (f.search x k out)
  reconstruct l out := Outcome.atomic_replace out (f.reconstruct l out)
  found x k out _ hok l hl := by
    obtain ⟨nq, -, hfound⟩ := map_eq_ok_iff.1 (Outcome.eq_ok_of_replace hok)
    exact Scan.proposable_of_mem_best (hfound ▸ hl)
  stored _ _ hl hout := f.reconstruct_of_isStored hl hout

theorem Shifted.reconstructsFound (s : Shifted) : Index.ReconstructsFound s where
  search x k out := Outcome.atomic_replace out (s.search x k out)
  reconstruct l out := Outcome.atomic_replace out (s.flat.reconstruct l out)
  found x k out _ hok l hl := by
    have hsearch : s.search x k out = .ok (Index.search s x k out).state :=
      Outcome.eq_ok_of_replace hok
    unfold Shifted.search at hsearch
    split at hsearch
    · cases hsearch
    · obtain ⟨nq, -, hfound⟩ := map_eq_ok_iff.1 hsearch
      exact Scan.proposable_of_mem_best (hfound ▸ hl)
  stored _ _ hl hout := s.flat.reconstruct_of_isStored hl hout

theorem SortedAxis.Reachable.reconstructsFound {s : SortedAxis} (hs : Reachable s) :
    Index.ReconstructsFound s where
  search x k out := Outcome.atomic_replace out (s.search x k out)
  reconstruct l out := Outcome.atomic_replace out (s.flat.reconstruct l out)
  found x k out _ hok l hl := by
    rw [search_eq_done hok] at hl
    obtain ⟨room, q, -, c, hrow, rfl⟩ := Slots.exists_of_mem_fillRows hl
    have hsort := hs.ordered.argsort_of_isCurrent (isCurrent_of_search hok)
    exact proposable_of_mem_searchRow hsort hrow
  stored _ _ hl hout := s.flat.reconstruct_of_isStored (s.count_flat ▸ hl) hout

namespace Refined

variable {metric : Metric} {nq k width count : Nat} {cs out : Slots} {l : Label}

/-- Where there are candidates for all queries the slots from before do not count. -/
theorem proposable_of_mem_rank (hwidth : k ≤ width)
    (hcs : ∀ l ∈ cs.labels, Label.Proposable count l)
    (hout : cs.distances.size = nq * width ∨ ∀ l ∈ out.labels, Label.Proposable count l)
    (hl : l ∈ (rank metric nq k width cs out).labels) : l.Proposable count := by
  obtain ⟨room, i, hi, c, hrow, rfl⟩ := Slots.exists_of_mem_fillRows hl
  unfold rankRow at hrow
  split at hrow
  · exact TopK.proposable_of_mem_finish (fun c hc => hcs _ (Slots.label_mem_of_mem_row hc)) hrow
  · next hnone =>
    rcases hout with hsize | hout
    · have hwidth0 : width = 0 := by
        by_contra hpos
        rw [hsize] at hnone
        exact hnone (Nat.mul_lt_mul_of_pos_right (List.mem_range.1 hi) (Nat.pos_of_ne_zero hpos))
      rw [hwidth0, Nat.le_zero] at hwidth
      simp [hwidth, Slots.row, Slots.candidates] at hrow
    · exact hout _ (Slots.label_mem_of_mem_row hrow)

variable {β : Type} [Index β] {r : Refined β} {x : Floats}

theorem proposable_of_search (hok : (Index.search r x k out).answer = .ok ())
    (hout : r.FitsCandidates x k ∨ ∀ l ∈ out.labels, l.Proposable r.exact.count) :
    ∀ l ∈ (Index.search r x k out).state.labels, l.Proposable r.exact.count := by
  intro l hl
  obtain ⟨-, nq, hshape, ⟨hempty, hdone⟩ | ⟨blank, found, -, -, hsize, hstored, hdone⟩⟩ :=
    search_ok hok
  · rw [hdone] at hl
    have hnone := (hasSize_of_checkShape_empty hshape hempty).labels
    rw [Array.size_eq_zero_iff] at hnone
    exact absurd (hnone ▸ hl) (Array.not_mem_empty l)
  · rw [hdone] at hl
    refine proposable_of_mem_rank (le_candidateCount r.factor k) (by rwa [Flat.labels_rescored])
      (hout.imp (fun hfits => ?_) id) hl
    rw [FitsCandidates, ← Index.eq_div_of_checkShape hshape] at hfits
    rw [Flat.size_distances_rescored, hsize.distances, Count.mul_eq hfits]

theorem reconstructsFound [Index.Sized β] (r : Refined β) : Index.ReconstructsFound r where
  search x k out := Outcome.atomic_replace out (r.search x k out)
  reconstruct l out := Outcome.atomic_replace out (r.exact.reconstruct l out)
  found _ _ _ hout hok := proposable_of_search hok (hout.imp_left fun hfits => hfits.2.1)
  stored _ _ hl hout := r.exact.reconstruct_of_isStored hl hout

end Refined

end Neighbors
