import Neighbors.Proofs.Compaction
import Neighbors.Proofs.Filled
import Neighbors.Proofs.Matches
import Neighbors.Proofs.Sized

/-!
# Queries on their own

`Index.Rowwise s`: each query of a batch is answered as it is alone, whatever the buffers held, if
the numbers of slots have 64 bits. That is so of an index whose slots are made of a row for each
query, once its checks have passed (`Rowwise.of_rows`), and of a refinement whose base has it
(`Refined.rowwise`).
-/

namespace Neighbors

/-! ## A row alone -/

section

variable {d k i : Nat} {x : Floats}

theorem size_rowOf_of_lt (hi : i < x.size / d) : (rowOf d x i).size = d :=
  size_rowOf ((Nat.mul_le_mul_right d hi).trans (Nat.div_mul_le_self x.size d))

theorem pos_of_lt_div {n : Nat} (hi : i < n / d) : 0 < d := by
  refine Nat.pos_of_ne_zero fun hd => ?_
  rw [hd, Nat.div_zero] at hi
  exact Nat.not_lt_zero i hi

theorem rowCount_rowOf (hi : i < x.size / d) : rowCount d (rowOf d x i) = .ok 1 := by
  have hd := pos_of_lt_div hi
  rw [rowCount_eq_ok_iff, size_rowOf_of_lt hi]
  exact ⟨hd, Nat.mod_self d, (Nat.div_self hd).symm⟩

theorem Scan.rows_rowOf (hi : i < x.size / d) : rows d (rowOf d x i) = [rowOf d x i] :=
  rows_of_size_eq (pos_of_lt_div hi) (size_rowOf_of_lt hi)

theorem Scan.rows_one (x : Floats) : rows 1 x = x.toList.map fun q => #[q] := by
  refine List.ext_getElem (by simp [rows]) fun i hi hi' => ?_
  simp only [rows, List.getElem_map, List.getElem_range, Array.getElem_toList]
  exact rowOf_one (by simpa using hi')

theorem Index.wellShaped_rowOf {own : Slots} (hi : i < x.size / d) (hown : own.HasSize k)
    (hk : x.size / d * k ≤ Count.limit) : WellShaped d (rowOf d x i) k own 1 := by
  rw [← Nat.one_mul k] at hown
  exact ⟨rowCount_rowOf hi, hown, (Nat.mul_le_mul_right k (Nat.one_le_of_lt hi)).trans hk⟩

theorem Index.WellShaped.of_hasSize {nq : Nat} {out other : Slots} (h : WellShaped d x k out nq)
    (hother : other.HasSize (x.size / d * k)) : WellShaped d x k other nq :=
  h.other (h.eq_div ▸ hother) h.fits

end

theorem Outcome.replace_eq_done_iff {σ : Type} {old new : σ} {r : Except Error σ} :
    replace old r = done new ↔ r = .ok new :=
  ⟨eq_ok_of_replace_done, fun h => h ▸ rfl⟩

namespace Index

variable {σ : Type} [Index σ] {s : σ}

/-- A range search finds for each query what it finds for the query alone. -/
def MatchesAlone (s : σ) : Prop :=
  ∀ x radius m, rangeSearch s x radius = .ok m →
    m.queryCount = x.size / dimension s ∧ ∀ i < x.size / dimension s, ∃ one : Matches,
      rangeSearch s (rowOf (dimension s) x i) radius = .ok one ∧ one.queryCount = 1 ∧
        one.total = (m.query i).labels.size ∧ one.query 0 = m.query i

variable [Sized σ]

/-- A query is answered as it is alone, and nothing is read from the slots. -/
structure Rowwise (s : σ) : Prop where
  overwrites : ∀ {x k out found other}, Sized.fits s x k → Index.search s x k out = .done found →
    other.HasSize (x.size / dimension s * k) → Index.search s x k other = .done found
  alone : ∀ {x k out found i own}, Sized.fits s x k → Index.search s x k out = .done found →
    i < x.size / dimension s → own.HasSize k →
      Index.search s (rowOf (dimension s) x i) k own = .done (found.row k i)
  matches_alone : MatchesAlone s

/-- Two batches have the same row where they have the same query. -/
theorem Rowwise.row_eq (hs : Rowwise s) {x y : Floats} {k i j : Nat} {out out' found found' : Slots}
    (hfits : Sized.fits s x k) (hfits' : Sized.fits s y k)
    (hx : Index.search s x k out = .done found) (hy : Index.search s y k out' = .done found')
    (hi : i < x.size / dimension s) (hj : j < y.size / dimension s)
    (hq : rowOf (dimension s) y j = rowOf (dimension s) x i) : found'.row k j = found.row k i := by
  have hown : Slots.HasSize ⟨.replicate k .zero, .replicate k noLabel⟩ k :=
    ⟨Array.size_replicate, Array.size_replicate⟩
  have halone := hs.alone hfits hx hi hown
  rw [← hq, hs.alone hfits' hy hj hown] at halone
  exact congrArg Outcome.state halone

/-- A search that passes its checks, of which one at most concerns the index, and then writes a row
for each query. -/
theorem Rowwise.of_rows (current : Prop) (row : Nat → Floats → List Candidate)
    (hlen : ∀ k q, (row k q).length = k)
    (hsearch : ∀ {x k out found}, Index.search s x k out = .done found ↔
      current ∧ (∃ nq, checkShape (dimension s) x k out = .ok nq) ∧
        found = .fillRows out.distances.size k (Scan.rows (dimension s) x) row)
    (hmatches : MatchesAlone s) : Rowwise s where
  overwrites {x k out found other} hfits h hother := by
    obtain ⟨hcurrent, ⟨nq, hshape⟩, hfound⟩ := hsearch.1 h
    have hout := Sized.wellShaped hfits hshape
    have hother' := hout.of_hasSize hother
    refine hsearch.2 ⟨hcurrent, ⟨nq, hother'.checkShape⟩, ?_⟩
    rw [hfound, hout.size.distances, hother'.size.distances]
  alone {x k out found i own} hfits h hi hown := by
    obtain ⟨hcurrent, ⟨nq, hshape⟩, rfl⟩ := hsearch.1 h
    have hout := Sized.wellShaped hfits hshape
    have hshape' := wellShaped_rowOf hi hown (Sized.slots_le hfits)
    refine hsearch.2 ⟨hcurrent, ⟨1, hshape'.checkShape⟩, ?_⟩
    rw [Slots.row_fillRows (fun _ _ => hlen _ _) (by rwa [Scan.length_rows])
      (hout.room (hout.eq_div ▸ hi)), Scan.rows_rowOf hi, hown.distances, Slots.fillRows_singleton]
    simp [Scan.rows]
  matches_alone := hmatches

end Index

open Index

namespace Flat

variable (f : Flat)

theorem matches_alone : MatchesAlone f := by
  intro x radius m h
  obtain ⟨nq, hrows, -⟩ := map_eq_ok_iff.1 (show f.rangeSearch x radius = .ok m from h)
  rw [rangeSearch_of_rows radius hrows] at h
  obtain rfl := Except.ok.inj h
  obtain ⟨-, -, hnq⟩ := rowCount_eq_ok_iff.1 hrows
  refine ⟨?_, fun i hi => ?_⟩
  · rw [Matches.queryCount_ofPartials, List.length_map, Scan.length_rows]
    rfl
  change i < x.size / f.dimension at hi
  have hone := rangeSearch_of_rows radius (rowCount_rowOf hi)
  rw [Scan.rows_rowOf hi, List.map_singleton] at hone
  refine ⟨_, hone, Matches.queryCount_ofPartials _, ?_, ?_⟩
  · rw [Matches.total, Matches.labels_ofPartials, query_rangeSearch radius hrows (hnq ▸ hi)]
    simp
  · rw [query_rangeSearch radius hrows (hnq ▸ hi)]
    exact Matches.query_ofPartials Nat.one_pos

theorem search_eq_done_iff {x : Floats} {k : Nat} {out found : Slots} :
    Index.search f x k out = .done found ↔ (∃ nq, checkShape f.dimension x k out = .ok nq) ∧
      found = Scan.nearest f.metric x f.vectors f.dimension k out.distances.size := by
  refine Outcome.replace_eq_done_iff.trans (map_eq_ok_iff.trans ?_)
  rw [exists_and_right, eq_comm]

theorem rowwise : Rowwise f :=
  .of_rows True (fun k q => (TopK.ofCandidates f.metric k (f.candidates q)).finish)
    (fun _ _ => TopK.length_finish_ofCandidates _ _ _)
    (f.search_eq_done_iff.trans (iff_of_eq (true_and _)).symm) f.matches_alone

end Flat

namespace Shifted

variable (s : Shifted)

theorem search_eq_done_iff {x : Floats} {k : Nat} {out found : Slots} :
    Index.search s x k out = .done found ↔ s.shift.size = s.storage.count ∧
      (∃ nq, checkShape s.storage.dimension x k out = .ok nq) ∧
        found = Scan.nearestShifted x s.storage.data s.shift s.storage.dimension k
          out.distances.size := by
  constructor
  · intro h
    obtain ⟨hshift, nq, hshape, hfound⟩ := search_of_done h
    exact ⟨hshift, ⟨nq, hshape⟩, hfound⟩
  · rintro ⟨hshift, ⟨nq, hshape⟩, rfl⟩
    refine Outcome.replace_eq_done_iff.2 ?_
    rw [Shifted.search, if_neg (not_not.2 hshift), hshape]
    rfl

theorem rowwise : Rowwise s :=
  .of_rows (s.shift.size = s.storage.count)
    (fun k q => (TopK.ofCandidates .l2 k (Scan.scored s.storage.dimension s.storage.data
      fun row j => squaredDistance q row - s.shift.getD j .zero)).finish)
    (fun _ _ => TopK.length_finish_ofCandidates _ _ _)
    s.search_eq_done_iff (fun _ _ _ h => nomatch h)

end Shifted

namespace SortedAxis

variable (s : SortedAxis)

theorem search_eq_done_iff {x : Floats} {k : Nat} {out found : Slots} :
    Index.search s x k out = .done found ↔ s.isCurrent = true ∧
      (∃ nq, checkShape 1 x k out = .ok nq) ∧
        found = .fillRows out.distances.size k x.toList s.searchRow := by
  constructor
  · intro h
    have hanswer := congrArg Outcome.answer h
    rw [search_eq_done hanswer] at h
    cases h
    exact ⟨isCurrent_of_search hanswer, checkShape_of_search hanswer, rfl⟩
  · rintro ⟨hcurrent, ⟨nq, hshape⟩, rfl⟩
    refine search_eq_done ?_
    rw [search_answer, if_pos hcurrent, hshape]
    rfl

theorem rowwise : Rowwise s :=
  .of_rows (s.isCurrent = true) (fun k q => s.searchRow k (q.getD 0 .zero))
    (fun k q => s.length_searchRow k _) (by
      intro x k out found
      rw [s.search_eq_done_iff, show Index.dimension s = 1 from rfl, Scan.rows_one,
        Slots.fillRows_map]
      rfl) s.flat.matches_alone

end SortedAxis

theorem Stock.rowwise (b : Stock) : Rowwise b := by
  obtain f | s | s := b
  · have hf := f.rowwise
    exact ⟨hf.overwrites, hf.alone, hf.matches_alone⟩
  · have hs := s.rowwise
    exact ⟨hs.overwrites, hs.alone, hs.matches_alone⟩
  · have hs := s.rowwise
    exact ⟨hs.overwrites, hs.alone, hs.matches_alone⟩

namespace Refined

theorem scratch_of_le {m n : Nat} {blank : Slots} (h : scratch n = .ok blank) (hle : m ≤ n) :
    ∃ less, scratch m = .ok less ∧ less.HasSize m := by
  unfold scratch at h ⊢
  split at h
  · cases h
  · next hroom =>
    rw [if_neg (by omega)]
    exact ⟨_, rfl, Array.size_replicate .., Array.size_replicate ..⟩

variable {β : Type} {r : Refined β} {x : Floats} {k nq width i : Nat} {blank found out own : Slots}

/-- The candidates of a query alone come to the row that they have in the batch. -/
theorem rank_rescored_rowOf (hwidth : k ≤ width) (hsize : found.HasSize (nq * width))
    (hnq : nq = x.size / r.exact.dimension) (hi : i < nq) (hout : out.HasSize (nq * k))
    (hown : own.HasSize k) :
    rank r.exact.metric 1 k width
        (r.exact.rescored (rowOf r.exact.dimension x i) width (found.row width i)) own =
      (rank r.exact.metric nq k width (r.exact.rescored x width found) out).row k i := by
  have hlt : i < x.size / r.exact.dimension := hnq ▸ hi
  have hq := size_rowOf_of_lt hlt
  have hrow := hsize.row hi
  have hone : 1 = (rowOf r.exact.dimension x i).size / r.exact.dimension := by
    rw [hq, Nat.div_self (pos_of_lt_div hlt)]
  have hrow1 : (found.row width i).HasSize (1 * width) := by rwa [Nat.one_mul]
  have hown1 : own.HasSize (1 * k) := by rwa [Nat.one_mul]
  have hrank : (rank r.exact.metric 1 k width
      (r.exact.rescored (rowOf r.exact.dimension x i) width (found.row width i)) own).HasSize
        (1 * k) := hasSize_rank hown1 (Nat.le_refl _)
  rw [Nat.one_mul] at hrank
  rw [← hrank.row_zero, rank_row hwidth (hasSize_rescored hrow1) hown1 Nat.one_pos,
    rank_row hwidth (hasSize_rescored hsize) hout hi, Flat.rescored_row hsize hnq hi,
    Flat.rescored_row hrow1 hone Nat.one_pos, hrow.row_zero, rowOf_zero hq]

variable [Index β] [Sized β]

/-- The base finds for a query alone what it finds for it in the batch. -/
theorem search_rowOf (hbase : Rowwise r.base) (hd : Index.dimension r.base = r.exact.dimension)
    (ht : r.trained = true) (hshape : WellShaped r.exact.dimension x k out nq)
    (hfits : Sized.fits r x k)
    (hscratch : scratch (nq * candidateCount r.factor k) = .ok blank)
    (hfound : Index.search r.base x (candidateCount r.factor k) blank = .done found)
    (hsize : found.HasSize (nq * candidateCount r.factor k))
    (hl : ∀ l ∈ found.labels, l.Proposable r.exact.count) (hi : i < nq) (hown : own.HasSize k) :
    Index.search r (rowOf r.exact.dimension x i) k own = .done
      ((rank r.exact.metric nq k (candidateCount r.factor k)
        (r.exact.rescored x (candidateCount r.factor k) found) out).row k i) := by
  have hnq := hshape.eq_div
  have hlt : i < x.size / r.exact.dimension := hnq ▸ hi
  obtain ⟨hslots, -, hbelow⟩ := hfits
  obtain ⟨less, hless, hblank⟩ :=
    scratch_of_le hscratch (Nat.mul_le_mul_right _ (Nat.one_le_of_lt hi))
  -- The base has blank slots for one query only, and cuts the batch where the copy does.
  rw [Nat.one_mul] at hblank
  have hproposed := hbase.alone hbelow hfound (by rwa [hd, ← hnq]) hblank
  rw [hd] at hproposed
  rw [search_of_scratch ht (wellShaped_rowOf hlt hown hslots).checkShape hless hproposed
    (by rw [Nat.one_mul]; exact hsize.row hi)
    fun l hmem => hl l (Slots.mem_labels_of_row (Array.mem_toList_iff.2 hmem)),
    rank_rescored_rowOf (le_candidateCount r.factor k) hsize hnq hi hshape.size hown]

theorem rowwise (hbase : Rowwise r.base) (hd : Index.dimension r.base = r.exact.dimension) :
    Rowwise r where
  overwrites {x k out found other} hfits h hother := by
    obtain ⟨ht, nq, hshape, hcase⟩ := hfits.2.1.search_ok (congrArg Outcome.answer h)
    have hshape' := hshape.of_hasSize hother
    rw [← h]
    rcases hcase with ⟨hempty, -⟩ | ⟨blank, proposed, hscratch, hproposed, hsize, hl, hdone⟩
    · have hout := hshape.size
      have hother := hshape'.size
      rw [hempty] at hout hother
      rw [Slots.eq_of_hasSize_zero hother hout]
    · rw [search_of_scratch ht hshape'.checkShape hscratch hproposed hsize hl, hdone,
        rank_other (le_candidateCount r.factor k) (hasSize_rescored hsize) hshape.size hshape'.size]
  alone {x k out found i own} hfits h hi hown := by
    change i < x.size / r.exact.dimension at hi
    obtain ⟨ht, nq, hshape, hcase⟩ := hfits.2.1.search_ok (congrArg Outcome.answer h)
    have hnq := hshape.eq_div
    rw [← hnq] at hi
    rcases hcase with ⟨hempty, hdone⟩ | ⟨blank, proposed, hscratch, hproposed, hsize, hl, hdone⟩
    · -- There is a query, so it is the slots that are none: its row is empty as well.
      obtain rfl : k = 0 := (Nat.mul_eq_zero.1 hempty).resolve_left (Nat.ne_zero_of_lt hi)
      cases h.symm.trans hdone
      have hrow := hshape.size.row hi
      rw [Slots.eq_of_hasSize_zero hrow hown]
      exact search_of_empty ht (wellShaped_rowOf (hnq ▸ hi) hown (Nat.zero_le _)).checkShape
        (Nat.mul_zero 1)
    · cases h.symm.trans hdone
      exact search_rowOf hbase hd ht hshape hfits hscratch hproposed hsize hl hi hown
  matches_alone _ _ _ h := nomatch h

end Refined

end Neighbors
