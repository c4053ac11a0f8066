import Neighbors.Proofs.Filled
import Neighbors.Proofs.Sized
import Neighbors.Proofs.SortedAxis.Nearest

/-!
# Rows that show a flat index

`Index.Shows`: each row of a query without NaN is the beginning of the vectors of a flat index in
some order, and then padding. A flat index shows itself by rank, a sorted one shows its values by
distance. A refinement whose base shows the copy shows it in an order of the same kind, whatever the
factor is (`Refined.shows`): what the base ranks behind the candidates stays behind them.
-/

namespace Neighbors

/-- The order of metric and label, which is that of a row. -/
def Candidate.ByRank (metric : Metric) (a b : Candidate) : Prop := a.rank metric ≤ b.rank metric

def Candidate.ByDistance (metric : Metric) (a b : Candidate) : Prop :=
  metric.rank a.distance ≤ metric.rank b.distance

theorem Candidate.ByRank.byDistance {metric : Metric} {a b : Candidate} (h : a.ByRank metric b) :
    a.ByDistance metric b := by
  rcases (rank_le_iff metric a b).1 h with hlt | ⟨heq, -⟩
  · exact Int.le_of_lt hlt
  · exact Int.le_of_eq heq

/-! ## Rows -/

namespace Flat

variable {f : Flat} {q : Floats} {k width : Nat} {row row' : Slots}
  {ahead ahead' : Candidate → Candidate → Prop}

def Measures (f : Flat) (q : Floats) : Prop := ∀ c ∈ f.candidates q, c.IsNumber

instance (f : Flat) (q : Floats) : Decidable (f.Measures q) :=
  inferInstanceAs (Decidable (∀ c ∈ f.candidates q, c.IsNumber))

/-- The row has the first `k` stored vectors in some order that `ahead` allows, and then padding. -/
def Shows (f : Flat) (ahead : Candidate → Candidate → Prop) (q : Floats) (k : Nat) (row : Slots) :
    Prop :=
  ∃ all : List Candidate, all.Perm (f.candidates q) ∧ all.Pairwise ahead ∧
    row = .ofCandidates (all.take k ++ List.replicate (k - f.count) .padding)

theorem Shows.mono (h : f.Shows ahead q k row)
    (himp : ∀ a b, ahead a b → ahead' a b) : f.Shows ahead' q k row := by
  obtain ⟨all, hperm, hall, hrow⟩ := h
  exact ⟨all, hperm, hall.imp (himp _ _), hrow⟩

theorem Shows.eq (h : f.Shows (Candidate.ByRank f.metric) q k row)
    (h' : f.Shows (Candidate.ByRank f.metric) q k row') : row = row' := by
  obtain ⟨all, hperm, hall, rfl⟩ := h
  obtain ⟨all', hperm', hall', rfl⟩ := h'
  rw [Candidate.eq_bestFirst hperm hall (f.consistent_candidates q),
    Candidate.eq_bestFirst hperm' hall' (f.consistent_candidates q)]

/-- Orders of distance differ in the labels only, unless zeros have signs. -/
theorem Shows.distances_eq (h : f.Shows (Candidate.ByDistance .l2) q k row)
    (h' : f.Shows (Candidate.ByDistance .l2) q k row')
    (hsign : ∀ c ∈ f.candidates q, c.distance.negative = false) :
    row.distances = row'.distances := by
  obtain ⟨all, hperm, hall, rfl⟩ := h
  obtain ⟨all', hperm', hall', rfl⟩ := h'
  have hdist := (Candidate.eq_bestFirst_of_pairwise_key hperm hall hsign).1
  have hdist' := (Candidate.eq_bestFirst_of_pairwise_key hperm' hall' hsign).1
  simp only [Slots.ofCandidates, List.map_append, List.map_take, hdist, hdist']

theorem candidateOf_label {c : Candidate} (hc : c ∈ f.candidates q) :
    f.candidateOf q c.label = c := by
  rw [candidates_eq_map] at hc
  obtain ⟨j, -, rfl⟩ := List.mem_map.1 hc
  rfl

theorem label_ne_noLabel {c : Candidate} (hc : c ∈ f.candidates q) : c.label ≠ noLabel := by
  obtain ⟨j, -, rfl⟩ := List.mem_map.1 hc
  show (j : Int) ≠ -1
  omega

/-- The candidates in a row that shows the index, scored again, are the ones it was made of. -/
theorem map_candidateOf_filter {cs : List Candidate} (hcs : ∀ c ∈ cs, c ∈ f.candidates q)
    (p : Nat) : (((cs ++ List.replicate p Candidate.padding).map Candidate.label).filter fun l =>
      l ≠ noLabel).map (f.candidateOf q) = cs := by
  have hlabelled : (cs.map Candidate.label).filter (fun l => l ≠ noLabel) =
      cs.map Candidate.label := by
    refine List.filter_eq_self.2 fun l hl => ?_
    obtain ⟨c, hc, rfl⟩ := List.mem_map.1 hl
    simpa using label_ne_noLabel (hcs c hc)
  have hpadding : ((List.replicate p Candidate.padding).map Candidate.label).filter
      (fun l => l ≠ noLabel) = [] := by
    simp [Candidate.padding]
  rw [List.map_append, List.filter_append, hlabelled, hpadding, List.append_nil, List.map_map]
  exact (List.map_congr_left fun c hc => candidateOf_label (hcs c hc)).trans (List.map_id cs)

/-- To sort the first `width` further, and take as many of them, is to take from a sorted whole. -/
theorem shows_bestFirst_take {all : List Candidate} (hperm : all.Perm (f.candidates q))
    (hall : all.Pairwise ahead)
    (hrank : ∀ a b : Candidate, a.ByRank f.metric b → ahead a b) (hk : k ≤ width) :
    f.Shows ahead q k (.ofCandidates ((Candidate.bestFirst f.metric (all.take width)).take k ++
      List.replicate (k - (all.take width).length) .padding)) := by
  have hbest := Candidate.bestFirst_perm f.metric (all.take width)
  have hcount : all.length = f.count := by rw [hperm.length_eq, length_candidates]
  refine ⟨Candidate.bestFirst f.metric (all.take width) ++ all.drop width, ?_, ?_, ?_⟩
  · refine (hbest.append_right _).trans ?_
    rwa [List.take_append_drop]
  · rw [← List.take_append_drop width all] at hall
    obtain ⟨-, hdrop, hacross⟩ := List.pairwise_append.1 hall
    refine List.pairwise_append.2 ⟨(Candidate.bestFirst_pairwise _ _).imp (hrank _ _), hdrop, ?_⟩
    exact fun a ha b hb => hacross a (hbest.mem_iff.1 ha) b hb
  · have hlen : (Candidate.bestFirst f.metric (all.take width)).length = min width f.count := by
      rw [hbest.length_eq, List.length_take, hcount]
    have htail : (all.drop width).take (k - min width f.count) = [] := by
      apply List.eq_nil_of_length_eq_zero
      rw [List.length_take, List.length_drop, hcount]
      omega
    have hpad : k - (all.take width).length = k - f.count := by
      rw [List.length_take, hcount]
      omega
    rw [List.take_append, hlen, htail, List.append_nil, hpad]

end Flat

/-! ## Searches -/

namespace Index

variable {σ : Type} [Index σ] [Sized σ]

/-- A search that succeeds has the shape of one in `f`, and its rows show `f`, if the numbers of
slots have 64 bits. -/
def Shows (s : σ) (f : Flat) (ahead : Candidate → Candidate → Prop) : Prop :=
  ∀ x k out, Sized.fits s x k → (Index.search s x k out).answer = .ok () →
    ∃ nq, WellShaped f.dimension x k out nq ∧
      (Index.search s x k out).state.HasSize (nq * k) ∧
      ∀ i < nq, f.Measures (rowOf f.dimension x i) →
        f.Shows ahead (rowOf f.dimension x i) k ((Index.search s x k out).state.row k i)

theorem Shows.row_of_done {s : σ} {f : Flat} {ahead : Candidate → Candidate → Prop} {x : Floats}
    {k nq i : Nat} {out found : Slots} (h : Shows s f ahead) (hfits : Sized.fits s x k)
    (hdone : Index.search s x k out = .done found) (hrows : rowCount f.dimension x = .ok nq)
    (hi : i < nq) (hq : f.Measures (rowOf f.dimension x i)) :
    f.Shows ahead (rowOf f.dimension x i) k (found.row k i) := by
  have hok : (Index.search s x k out).answer = .ok () := by
    rw [hdone]
    rfl
  obtain ⟨nq', hshape, -, hshown⟩ := h x k out hfits hok
  have hsame : nq' = nq := Except.ok.inj (hshape.rows.symm.trans hrows)
  rw [hsame, hdone] at hshown
  exact hshown i hi hq

end Index

theorem Flat.shows (f : Flat) : Index.Shows f f (Candidate.ByRank f.metric) := by
  intro x k out hfits hok
  obtain ⟨nq, hshape, -⟩ := map_eq_ok_iff.1 (Outcome.eq_ok_of_replace hok)
  have hwell : Index.WellShaped f.dimension x k out nq := Index.Sized.wellShaped hfits hshape
  rw [f.search_of_shape hshape]
  refine ⟨nq, hwell, ?_, fun i hi hq => ?_⟩
  · rw [← Count.mul_eq hwell.fits]
    exact Scan.hasSize_best_of_checkShape hshape
  · exact ⟨_, Candidate.bestFirst_perm _ _, Candidate.bestFirst_pairwise _ _,
      f.nearest_row (hwell.eq_div ▸ hi) (hwell.room hi) hq⟩

/-! ## A sorted index -/

namespace SortedAxis

variable {s : SortedAxis}

theorem measures_of_flat {q : Binary32} (h : s.flat.Measures #[q]) : Measures s.values q := by
  intro v hv hnan
  obtain ⟨j, hj, rfl⟩ := Array.mem_iff_getElem.1 hv
  have hrow : rowOf s.flat.dimension s.flat.vectors j = #[s.values[j]] := rowOf_one hj
  refine h ⟨s.flat.metric.distance #[q] #[s.values[j]], j⟩ ?_ ?_
  · rw [← hrow]
    exact List.mem_map.2 ⟨j, List.mem_range.2 (s.count_flat ▸ hj), rfl⟩
  · have hsum : s.flat.metric.distance #[q] #[s.values[j]] =
        .negZero + (q - s.values[j]) * (q - s.values[j]) := rfl
    rw [hsum]
    exact Binary32.isNaN_add_right (Binary32.isNaN_mul_self hnan)

theorem Reachable.shows (hs : Reachable s) :
    Index.Shows s s.flat (Candidate.ByDistance .l2) := by
  intro x k out hfits hok
  obtain ⟨nq, hshape⟩ := checkShape_of_search hok
  have hwell : Index.WellShaped 1 x k out nq := Index.Sized.wellShaped hfits hshape
  have hnq := hwell.eq_div
  rw [Nat.div_one] at hnq
  have hsort := hs.ordered.argsort_of_isCurrent (isCurrent_of_search hok)
  refine ⟨nq, hwell, ?_, fun i hi hq => ?_⟩
  · rw [search_eq_done hok, ← hwell.size.distances]
    exact s.hasSize_rows (Nat.le_of_eq (hnq ▸ hwell.size.distances))
  · have hroom := hwell.room hi
    rw [hnq] at hi
    have hrow : rowOf s.flat.dimension x i = #[x[i]] := rowOf_one hi
    rw [hrow] at hq ⊢
    have hd := measures_of_flat hq
    refine ⟨s.nearestFirst x[i], ?_, nearestFirst_pairwise hsort hd, ?_⟩
    · rw [flat_candidates hd]
      exact nearestFirst_perm hsort (not_undecided hd)
    · rw [search_row hok hi hroom, searchRow_eq_take hsort (not_undecided hd), count_flat]

end SortedAxis

/-! ## A refinement -/

namespace Refined

variable {β : Type} [Index β] {r : Refined β} {ahead : Candidate → Candidate → Prop}

omit [Index β] in
/-- A base that shows the copy proposes the beginning of some order of it. -/
theorem proposals_of_shows {x : Floats} {width i : Nat} {found : Slots} {all : List Candidate}
    (hperm : all.Perm (r.exact.candidates (rowOf r.exact.dimension x i)))
    (hrow : found.row width i =
      .ofCandidates (all.take width ++ List.replicate (width - r.exact.count) .padding)) :
    r.proposals x width found i = all.take width := by
  unfold proposals
  rw [hrow]
  exact Flat.map_candidateOf_filter
    (fun c hc => hperm.mem_iff.1 (List.mem_of_mem_take hc)) (width - r.exact.count)

omit [Index β] in
/-- A row of the base that shows the copy becomes one that shows it in `k` slots. -/
theorem rank_rescored_shows {x : Floats} {k width nq i : Nat} {found out : Slots} (hk : k ≤ width)
    (hout : out.HasSize (nq * k)) (hsize : found.HasSize (nq * width))
    (hnq : nq = x.size / r.exact.dimension) (hi : i < nq)
    (hq : r.exact.Measures (rowOf r.exact.dimension x i))
    (hrank : ∀ a b : Candidate, a.ByRank r.exact.metric b → ahead a b)
    (hshown : r.exact.Shows ahead (rowOf r.exact.dimension x i) width (found.row width i)) :
    r.exact.Shows ahead (rowOf r.exact.dimension x i) k
      ((rank r.exact.metric nq k width (r.exact.rescored x width found) out).row k i) := by
  obtain ⟨all, hperm, hall, hrow⟩ := hshown
  have hproposals : r.proposals x width found i = all.take width := proposals_of_shows hperm hrow
  have hnumbers : ∀ c ∈ r.proposals x width found i, c.IsNumber := by
    intro c hc
    rw [hproposals] at hc
    exact hq c (hperm.mem_iff.1 (List.mem_of_mem_take hc))
  rw [rank_rescored_row hk hsize hout hnq hi hnumbers, hproposals]
  exact Flat.shows_bestFirst_take hperm hall hrank hk

theorem shows [Index.Sized β] (hbase : Index.Shows r.base r.exact ahead)
    (hrank : ∀ a b : Candidate, a.ByRank r.exact.metric b → ahead a b) :
    Index.Shows r r.exact ahead := by
  intro x k out hfits hok
  obtain ⟨-, nq, hshape, hcase⟩ := hfits.2.1.search_ok hok
  refine ⟨nq, hshape, ?_⟩
  rcases hcase with ⟨hempty, hdone⟩ | ⟨blank, found, -, hfound, hsize, -, hdone⟩
  -- The base is not asked, and the rows are empty.
  · rw [hdone]
    refine ⟨hshape.size, fun i hi hq => ?_⟩
    have hk : k = 0 := (Nat.mul_eq_zero.1 hempty).resolve_left (Nat.ne_of_gt (Nat.zero_lt_of_lt hi))
    subst hk
    refine ⟨_, Candidate.bestFirst_perm _ _,
      (Candidate.bestFirst_pairwise r.exact.metric _).imp (hrank _ _), ?_⟩
    simp [Outcome.done, Slots.row, Slots.ofCandidates]
  · rw [hdone]
    refine ⟨hasSize_rank hshape.size (Nat.le_refl _), fun i hi hq => ?_⟩
    have hshown := hbase.row_of_done hfits.2.2 hfound hshape.rows hi hq
    exact rank_rescored_shows (le_candidateCount r.factor k) hshape.size hsize hshape.eq_div hi hq
      hrank hshown

end Refined

/-! ## Searches that show the same flat index -/

namespace Index

variable {σ : Type} [Index σ] [Sized σ] {s : σ} {f : Flat}
  {ahead : Candidate → Candidate → Prop} {x : Floats} {k : Nat} {out : Slots}

/-- The flat index shows itself in any order that another index shows it in. -/
theorem Shows.search_flat (h : Shows s f ahead)
    (hrank : ∀ a b : Candidate, a.ByRank f.metric b → ahead a b) (hfits : Sized.fits s x k)
    (hok : (Index.search s x k out).answer = .ok ())
    (hx : ∀ i < x.size / f.dimension, f.Measures (rowOf f.dimension x i)) :
    (Index.search f x k out).answer = .ok () ∧
    (Index.search s x k out).state.HasSize (x.size / f.dimension * k) ∧
    (Index.search f x k out).state.HasSize (x.size / f.dimension * k) ∧
    ∀ i < x.size / f.dimension,
      f.Shows ahead (rowOf f.dimension x i) k ((Index.search s x k out).state.row k i) ∧
      f.Shows ahead (rowOf f.dimension x i) k ((Index.search f x k out).state.row k i) := by
  obtain ⟨nq, hshape, hsize, hrows⟩ := h x k out hfits hok
  have hfok : (Index.search f x k out).answer = .ok () := by
    rw [f.search_of_shape hshape.checkShape]
    rfl
  obtain rfl := hshape.eq_div
  obtain ⟨nq', hshape', hsize', hrows'⟩ := f.shows x k out hshape.fits hfok
  obtain rfl := hshape'.eq_div
  refine ⟨hfok, hsize, hsize', fun i hi => ⟨hrows i hi (hx i hi), ?_⟩⟩
  exact (hrows' i hi (hx i hi)).mono hrank

theorem Shows.search_eq (h : Shows s f (Candidate.ByRank f.metric)) (hfits : Sized.fits s x k)
    (hok : (Index.search s x k out).answer = .ok ())
    (hx : ∀ i < x.size / f.dimension, f.Measures (rowOf f.dimension x i)) :
    Index.search s x k out = Index.search f x k out := by
  obtain ⟨hfok, hsize, hsize', hrows⟩ := h.search_flat (fun _ _ hab => hab) hfits hok hx
  rw [Outcome.eq_done hok, Outcome.eq_done hfok]
  refine congrArg Outcome.done (Slots.eq_of_rows hsize hsize' fun i hi => ?_)
  exact (hrows i hi).1.eq (hrows i hi).2

end Index

/-- The squared distances of a sorted index have no sign, so that they are the same in any order. -/
theorem SortedAxis.distances_of_shows {σ : Type} [Index σ] [Index.Sized σ] {t : σ}
    {s : SortedAxis} {x : Floats} {k : Nat} {out : Slots}
    (h : Index.Shows t s.flat (Candidate.ByDistance .l2))
    (hfits : Index.Sized.fits t x k) (hok : (Index.search t x k out).answer = .ok ())
    (hx : ∀ i < x.size / s.flat.dimension, s.flat.Measures (rowOf s.flat.dimension x i)) :
    (Index.search s.flat x k out).answer = .ok () ∧
      (Index.search t x k out).state.distances = (Index.search s.flat x k out).state.distances := by
  obtain ⟨hfok, hsize, hsize', hrows⟩ := h.search_flat (fun _ _ hab => hab.byDistance) hfits hok hx
  refine ⟨hfok, Slots.array_eq_of_rows hsize.distances hsize'.distances fun i hi => ?_⟩
  refine (hrows i hi).1.distances_eq (hrows i hi).2 fun c hc => ?_
  have hlt : i < x.size := Nat.lt_of_lt_of_eq hi (Nat.div_one x.size)
  have hrow : rowOf s.flat.dimension x i = #[x[i]] := rowOf_one hlt
  have hd := measures_of_flat (hrow ▸ hx i hi)
  rw [hrow, flat_candidates hd] at hc
  exact (allCandidates_spec hd c hc).2.1

end Neighbors
