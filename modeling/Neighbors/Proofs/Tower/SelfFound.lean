import Neighbors.Proofs.Binary32.Finite
import Neighbors.Proofs.Filled
import Neighbors.Proofs.Rowwise
import Neighbors.Proofs.Tower.Aligned
import Neighbors.Proofs.Tower.Stored

/-!
# A stored vector finds itself

Distances of finite vectors are numbers without a sign, and the least of them is `+0`, which a
vector has from itself. So a row that shows a flat index in the order of its distances begins with a
vector at `+0` and ascends from there, whatever overflows (`Tower.Reachable.finds_self`).
-/

namespace Neighbors

open Binary32 Index

/-! ## Rows of finite vectors -/

namespace Flat

variable {f : Flat} {q : Floats} {k : Nat} {row : Slots} {ahead : Candidate → Candidate → Prop}

theorem mem_candidates_iff {c : Candidate} : c ∈ f.candidates q ↔
    ∃ l < f.count, c = ⟨f.metric.distance q (rowOf f.dimension f.vectors l), (l : Label)⟩ := by
  simp [candidates, eq_comm]

theorem mk_mem_candidates_iff {v : Binary32} {l : Nat} :
    (⟨v, (l : Label)⟩ : Candidate) ∈ f.candidates q ↔
      l < f.count ∧ f.metric.distance q (rowOf f.dimension f.vectors l) = v := by
  rw [mem_candidates_iff]
  constructor
  · rintro ⟨m, hm, h⟩
    obtain ⟨hv, hl⟩ := Candidate.mk.inj h
    obtain rfl := Int.ofNat_inj.1 hl
    exact ⟨hm, hv.symm⟩
  · rintro ⟨hl, rfl⟩
    exact ⟨l, hl, rfl⟩

theorem isNonneg_of_mem_candidates (hmetric : f.metric = .l2) (hf : f.vectors.AllFinite)
    (hq : q.AllFinite) (hsize : q.size = f.dimension) {c : Candidate} (hc : c ∈ f.candidates q) :
    c.distance.IsNonneg := by
  obtain ⟨j, hj, rfl⟩ := mem_candidates_iff.1 hc
  have hpos : 0 < f.dimension := f.storage.dimension_pos
  have hrow := size_rowOf_of_lt hj
  rw [hmetric]
  exact isNonneg_squaredDistance hq (hf.row _ _) (hpos.trans_eq hsize.symm)
    (hpos.trans_eq hrow.symm)

theorem distance_self (hf : f.vectors.AllFinite) {i : Nat} (hi : i < f.count) :
    squaredDistance (rowOf f.dimension f.vectors i) (rowOf f.dimension f.vectors i) = zero := by
  have hrow : (rowOf f.dimension f.vectors i).size = f.dimension := size_rowOf_of_lt hi
  exact squaredDistance_self (hf.row _ _) (f.storage.dimension_pos.trans_eq hrow.symm)

/-- Nothing in the row is NaN or has a sign, empty slots included. -/
theorem Shows.isNonneg (h : f.Shows ahead q k row)
    (hnonneg : ∀ c ∈ f.candidates q, c.distance.IsNonneg) : ∀ v ∈ row.distances, v.IsNonneg := by
  obtain ⟨all, hperm, -, rfl⟩ := h
  intro v hv
  simp only [Slots.ofCandidates, List.mem_toArray, List.mem_map, List.mem_append] at hv
  obtain ⟨c, hc | hc, rfl⟩ := hv
  · exact hnonneg c (hperm.mem_iff.1 (List.mem_of_mem_take hc))
  · rw [List.eq_of_mem_replicate hc]
    exact isNonneg_infinity

theorem Shows.ascending (h : f.Shows ahead q k row)
    (hahead : ∀ a b : Candidate, ahead a b → a.ByDistance .l2 b)
    (hnonneg : ∀ c ∈ f.candidates q, c.distance.IsNonneg) :
    row.distances.toList.Pairwise fun v w => v.le w = true := by
  obtain ⟨all, hperm, hall, rfl⟩ := h
  have hmem : ∀ c ∈ all.take k, c.distance.IsNonneg :=
    fun c hc => hnonneg c (hperm.mem_iff.1 (List.mem_of_mem_take hc))
  simp only [Slots.ofCandidates, List.pairwise_map]
  refine List.pairwise_append.2 ⟨?_, ?_, fun a ha b hb => ?_⟩
  · refine (List.Pairwise.and_mem.1 (hall.sublist (List.take_sublist k all))).imp ?_
    rintro a b ⟨ha, hb, hab⟩
    exact (le_iff (hmem a ha).not_isNaN (hmem b hb).not_isNaN).2 (hahead a b hab)
  · refine List.pairwise_replicate.2 (.inr ?_)
    decide
  · have hinf : b.distance = infinity := congrArg Candidate.distance (List.eq_of_mem_replicate hb)
    have hnan := (hmem a ha).not_isNaN
    rw [hinf]
    exact (le_iff hnan isNonneg_infinity.not_isNaN).2 (key_le_infinityWord hnan).2

theorem Shows.first (h : f.Shows ahead q k row)
    (hahead : ∀ a b : Candidate, ahead a b → a.ByDistance .l2 b)
    (hnonneg : ∀ c ∈ f.candidates q, c.distance.IsNonneg) {i : Nat} (hi : i < f.count)
    (hat : f.metric.distance q (rowOf f.dimension f.vectors i) = zero) (hk : 1 ≤ k) :
    ∃ l < f.count, f.metric.distance q (rowOf f.dimension f.vectors l) = zero ∧
      row.distances[0]? = some zero ∧ row.labels[0]? = some (l : Label) ∧
      ∀ l' < f.count, f.metric.distance q (rowOf f.dimension f.vectors l') = zero →
        l' = l ∨ ahead ⟨zero, l⟩ ⟨zero, l'⟩ := by
  obtain ⟨all, hperm, hall, rfl⟩ := h
  obtain ⟨m, rfl⟩ := Nat.exists_eq_add_of_le' hk
  have hself : (⟨zero, i⟩ : Candidate) ∈ all := hperm.mem_iff.2 (mk_mem_candidates_iff.2 ⟨hi, hat⟩)
  cases all with
  | nil => exact absurd hself List.not_mem_nil
  | cons c all =>
    have hc : c ∈ f.candidates q := hperm.mem_iff.1 List.mem_cons_self
    have hfirst : ∀ c' ∈ c :: all, c' = c ∨ ahead c c' := fun c' hc' =>
      (List.mem_cons.1 hc').imp_right ((List.pairwise_cons.1 hall).1 c')
    -- The first one is no farther than the vector at `+0`, and nothing is nearer than that.
    have hle : c.distance.key ≤ zero.key := by
      rcases hfirst _ hself with hsame | hbehind
      · rw [← hsame]
      · exact hahead _ _ hbehind
    have hzero : c.distance = zero := by
      refine eq_of_key_eq (hnonneg c hc).negative rfl (Int.le_antisymm hle ?_)
      exact (hnonneg c hc).key_nonneg
    obtain ⟨l, hl, rfl⟩ := mem_candidates_iff.1 hc
    rw [show f.metric.distance q _ = zero from hzero] at hfirst hperm ⊢
    refine ⟨l, hl, hzero, rfl, rfl, fun l' hl' hat' => ?_⟩
    have hmem := hperm.mem_iff.2 (mk_mem_candidates_iff.2 ⟨hl', hat'⟩)
    rcases hfirst _ hmem with hsame | hbehind
    · exact .inl (Int.ofNat_inj.1 (congrArg Candidate.label hsame))
    · exact .inr hbehind

/-- Of the vectors at `+0`, a row of rank begins with the first. -/
theorem Shows.first_of_byRank (h : f.Shows (Candidate.ByRank f.metric) q k row)
    (hmetric : f.metric = .l2) (hnonneg : ∀ c ∈ f.candidates q, c.distance.IsNonneg) {i : Nat}
    (hi : i < f.count) (hat : f.metric.distance q (rowOf f.dimension f.vectors i) = zero)
    (hk : 1 ≤ k) :
    ∃ l < f.count, f.metric.distance q (rowOf f.dimension f.vectors l) = zero ∧
      row.distances[0]? = some zero ∧ row.labels[0]? = some (l : Label) ∧
      ∀ l' < f.count, f.metric.distance q (rowOf f.dimension f.vectors l') = zero → l ≤ l' := by
  obtain ⟨l, hl, hzero, hdistance, hlabel, hfirst⟩ :=
    h.first (fun _ _ hab => hmetric ▸ hab.byDistance) hnonneg hi hat hk
  refine ⟨l, hl, hzero, hdistance, hlabel, fun l' hl' hat' => ?_⟩
  rcases hfirst l' hl' hat' with rfl | hbehind
  · exact Nat.le_refl _
  · rcases (Candidate.rank_le_iff f.metric _ _).1 hbehind with hlt | ⟨-, hle⟩
    · exact absurd hlt (lt_irrefl _)
    · exact Int.ofNat_le.1 hle

end Flat

/-! ## Towers -/

namespace Tower

variable {n : Nat} {t : Tower Stock n} {x : Floats} {k : Nat} {out found : Slots}

theorem Copies.byDistance {f : Flat} (h : Copies f t) (hmetric : f.metric = .l2) :
    Index.Shows t f (Candidate.ByDistance .l2) := by
  have hstock := h.stock
  have hrank : ∀ a b : Candidate, a.ByRank f.metric b → a.ByDistance .l2 b :=
    fun a b hab => hmetric ▸ hab.byDistance
  cases hcore : core t with
  | inl g =>
    rw [hcore] at hstock
    cases hstock
    refine h.shows ?_ hrank
    rw [hcore]
    intro x k out hfits hok
    obtain ⟨nq, hshape, hsize, hrows⟩ := f.shows x k out hfits hok
    exact ⟨nq, hshape, hsize, fun i hi hq => (hrows i hi hq).mono hrank⟩
  | inr b =>
    obtain s | s := b
    · rw [hcore] at hstock
      exact hstock.elim
    · rw [hcore] at hstock
      obtain ⟨hs, rfl⟩ := hstock
      exact h.shows (hcore ▸ hs.shows) hrank

theorem Copies.byRank {f : Flat} (h : Copies f t) (hcore : ∃ g, core t = .inl g) :
    Index.Shows t f (Candidate.ByRank f.metric) := by
  obtain ⟨g, hg⟩ := hcore
  have hstock := h.stock
  rw [hg] at hstock
  cases hstock
  exact h.shows (hg ▸ f.shows) fun _ _ hab => hab

/-- If a vector is at `+0`, its row begins with one that is, over a flat index with the first. -/
theorem Copies.first_of_done {f : Flat} (h : Copies f t) (hmetric : f.metric = .l2)
    (hfits : Sized.fits t x k) (hdone : Index.search t x k out = .done found) {nq r : Nat}
    (hrows : rowCount f.dimension x = .ok nq) (hr : r < nq)
    (hnonneg : ∀ c ∈ f.candidates (rowOf f.dimension x r), c.distance.IsNonneg) (hk : 1 ≤ k)
    {i : Nat} (hi : i < f.count)
    (hat : squaredDistance (rowOf f.dimension x r) (rowOf f.dimension f.vectors i) = zero) :
    ∃ l : Nat, l < f.count ∧ (found.row k r).distances[0]? = some zero ∧
      (found.row k r).labels[0]? = some (l : Label) ∧
      squaredDistance (rowOf f.dimension x r) (rowOf f.dimension f.vectors l) = zero ∧
      ((∃ g, core t = .inl g) → l ≤ i ∧ ∀ l' < f.count,
        squaredDistance (rowOf f.dimension x r) (rowOf f.dimension f.vectors l') = zero →
          l ≤ l') := by
  have hdistance : f.metric.distance = squaredDistance := by rw [hmetric]; rfl
  have hmeasures : f.Measures (rowOf f.dimension x r) := fun c hc => (hnonneg c hc).not_isNaN
  rw [← hdistance] at hat ⊢
  by_cases hflat : ∃ g, core t = .inl g
  · have hshown := (h.byRank hflat).row_of_done hfits hdone hrows hr hmeasures
    obtain ⟨l, hl, hzero, hdistance, hlabel, hfirst⟩ :=
      hshown.first_of_byRank hmetric hnonneg hi hat hk
    exact ⟨l, hl, hdistance, hlabel, hzero, fun _ => ⟨hfirst i hi hat, hfirst⟩⟩
  · have hshown := (h.byDistance hmetric).row_of_done hfits hdone hrows hr hmeasures
    obtain ⟨l, hl, hzero, hdistance, hlabel, -⟩ :=
      hshown.first (fun _ _ hab => hab) hnonneg hi hat hk
    exact ⟨l, hl, hdistance, hlabel, hzero, fun hg => absurd hg hflat⟩

/-- In a tower of squared distances over a flat or a sorted index that has finite vectors only, a
search for one of them that succeeds begins its row with a vector at `+0`: over a flat index with
the first such vector, which is the one searched for or one before it. From there on the distances
of the row ascend, and none of them is NaN or has a sign, even where differences or squares
overflow. In a batch the slots for all candidates have to have a number of 64 bits, which those of a
query alone have. -/
theorem Reachable.finds_self (h : Reachable t) (hcore : ¬(core t).IsShifted)
    (hmetric : Index.metric t = .l2) (hfinite : (stored t).vectors.AllFinite) (hk : 1 ≤ k)
    (hroom : x.size / dimension t = 1 ∧ k ≤ Count.limit ∨ Sized.fits t x k)
    (hdone : Index.search t x k out = .done found) {r i : Nat} (hr : r < x.size / dimension t)
    (hi : i < count t)
    (hq : rowOf (dimension t) x r = rowOf (dimension t) (stored t).vectors i) :
    let d := dimension t
    let q := rowOf d x r
    let row := found.row k r
    row.HasSize k ∧
    (∃ l : Nat, l < count t ∧ row.distances[0]? = some .zero ∧ row.labels[0]? = some (l : Label) ∧
      squaredDistance q (rowOf d (stored t).vectors l) = .zero ∧
      ((∃ g, core t = .inl g) → l ≤ i ∧ ∀ l' < count t,
        squaredDistance q (rowOf d (stored t).vectors l') = .zero → l ≤ l')) ∧
    (row.distances.toList.Pairwise fun v w => v.le w = true) ∧
    ∀ v ∈ row.distances, v.isNaN = false ∧ v.negative = false := by
  have hcopies : Copies (stored t) t := h.copies hcore
  have hfits : Sized.fits t x k :=
    hroom.elim (fun hone => h.aligned.fits_of_one hone.1 hone.2) id
  generalize stored t = f at *
  obtain ⟨hcount, hdim, hsame, -⟩ := hcopies.profile
  obtain ⟨nq, hshape, hsize⟩ := (fillsBuffers t).search hdone
  have hrows := (checkShape_eq_ok_iff.1 hshape).1
  obtain rfl := eq_div_of_checkShape hshape
  rw [Count.mul_eq (Sized.slots_le hfits)] at hsize
  have hrow := hsize.row (i := r) hr
  rw [hdim] at hrows hr hq
  rw [hcount] at hi
  rw [hsame] at hmetric
  rw [hdim, hcount]
  intro d q row
  have hnonneg : ∀ c ∈ f.candidates q, c.distance.IsNonneg := by
    intro c hc
    rw [show q = _ from hq] at hc
    exact Flat.isNonneg_of_mem_candidates hmetric hfinite (hfinite.row _ _) (size_rowOf_of_lt hi) hc
  have hat : squaredDistance q (rowOf f.dimension f.vectors i) = zero := by
    rw [show q = _ from hq]
    exact Flat.distance_self hfinite hi
  have hshown : f.Shows (Candidate.ByDistance .l2) q k row :=
    (hcopies.byDistance hmetric).row_of_done hfits hdone hrows hr fun c hc =>
      (hnonneg c hc).not_isNaN
  refine ⟨hrow, hcopies.first_of_done hmetric hfits hdone hrows hr hnonneg hk hi hat,
    hshown.ascending (fun _ _ hab => hab) hnonneg, fun v hv => ?_⟩
  have hv := hshown.isNonneg hnonneg v hv
  exact ⟨hv.isNaN, hv.negative⟩

/-- The third vector is the first one again, and from both the difference to the second
overflows. -/
theorem finds_self_overflow :
    let huge : Binary32 := ⟨false, 0x7f000000, by decide⟩
    let empty : Flat := ⟨⟨2, #[], by decide, by decide⟩, .l2⟩
    let inner : Refined (Tower Stock 0) := ⟨.inl empty, empty, .one, true⟩
    let batch : Floats := #[huge, -huge, -huge, huge, huge, -huge]
    let t : Tower Stock 1 := (Index.add inner batch).state
    let x : Floats := #[.one, .zero, huge, -huge]
    let found := (Index.search t x 4 ⟨.replicate 8 .one, .replicate 8 7⟩).state
    let row := found.row 4 1
    Reachable t ∧ (stored t).vectors.AllFinite ∧
      row.distances = #[.zero, .zero, .infinity, .infinity] ∧ row.labels[0]? = some 0 ∧
      (row.distances.toList.Pairwise fun v w => v.le w = true) ∧
      ∀ v ∈ row.distances, v.isNaN = false ∧ v.negative = false := by
  intro huge empty inner batch t x found row
  have hempty : Flat.empty 2 .l2 = .ok empty := rfl
  have hinner : Refined.ofBase (β := Tower Stock 0) (.inl empty) {} = .ok inner := by
    dsimp only [inner, empty]
    rfl
  have ht : Reachable t := .add batch (.refine (.flat hempty) hinner)
  have hcore : ∃ g, core t = .inl g := by
    rcases core_add (n := 1) inner batch with hsame | hadd
    · exact ⟨_, hsame⟩
    · exact ⟨_, hadd⟩
  have hplain : ¬(core t).IsShifted := by
    obtain ⟨g, hg⟩ := hcore
    rw [hg]
    exact id
  have hfinite : (stored t).vectors.AllFinite := by decide +kernel
  have hfits : Sized.fits t x 4 :=
    ⟨by decide +kernel, by decide +kernel, (Stock.fits_iff ..).2 (by decide +kernel)⟩
  have hdone : Index.search t x 4 ⟨.replicate 8 .one, .replicate 8 7⟩ = .done found :=
    Outcome.eq_done (by decide +kernel)
  obtain ⟨-, ⟨l, -, -, hlabel, -, hfirst⟩, hascending, hnonneg⟩ :=
    ht.finds_self (r := 1) (i := 2) hplain (by decide +kernel) hfinite (by decide) (.inr hfits)
      hdone (by decide +kernel) (by decide +kernel) (by decide +kernel)
  have hzero : l ≤ 0 := (hfirst hcore).2 0 (by decide +kernel) (by decide +kernel)
  obtain rfl := Nat.le_zero.1 hzero
  exact ⟨ht, hfinite, by decide +kernel, hlabel, hascending, hnonneg⟩

end Tower

end Neighbors
