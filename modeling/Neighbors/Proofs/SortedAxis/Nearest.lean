import Neighbors.Proofs.SortedAxis.Place
import Neighbors.Proofs.Binary32.Difference
import Neighbors.Proofs.FlatSearch

/-!
# The sorted index finds what a flat index finds

Away from NaN the distances to the query fall along the sorted values up to the query and rise from
there (`Valley`). The frontier stays around the bottom, so that each step takes a nearest position
of those left (`next?_nearest`) and a walk gives them in order (`given_nearest`). The rows then have
the distances of the rows of a flat index (`Reachable.search_agrees`).
-/

namespace Neighbors

namespace Candidate

variable {l cs : List Candidate}

theorem bestFirst_pairwise_key (cs : List Candidate) :
    (bestFirst .l2 cs).Pairwise fun a b => a.distance.key ≤ b.distance.key := by
  refine (bestFirst_pairwise .l2 cs).imp fun {a b} h => ?_
  rcases (rank_le_iff .l2 a b).1 h with hlt | ⟨heq, -⟩
  · exact Int.le_of_lt hlt
  · exact Int.le_of_eq heq

/-- Candidates in ascending order of distances without a sign have the distances of the best ones,
and are the best ones if no distance is there twice. -/
theorem eq_bestFirst_of_pairwise_key (hp : l.Perm cs)
    (hs : l.Pairwise fun a b => a.distance.key ≤ b.distance.key)
    (hneg : ∀ c ∈ cs, c.distance.negative = false) :
    l.map distance = (bestFirst .l2 cs).map distance ∧
      ((cs.map distance).Nodup → l = bestFirst .l2 cs) := by
  have hbest := bestFirst_perm .l2 cs
  have hperm := hp.trans hbest.symm
  have heq : ∀ a ∈ l, ∀ b ∈ bestFirst .l2 cs, a.distance.key ≤ b.distance.key →
      b.distance.key ≤ a.distance.key → a.distance = b.distance := fun a ha b hb hab hba =>
    Binary32.eq_of_key_eq (hneg a (hp.mem_iff.1 ha)) (hneg b (hbest.mem_iff.1 hb))
      (Int.le_antisymm hab hba)
  refine ⟨?_, fun hd => ?_⟩
  · have hs' : (l.map distance).Pairwise fun x y => x.key ≤ y.key := List.pairwise_map.2 hs
    refine List.Perm.eq_of_pairwise ?_ hs' (List.pairwise_map.2 (bestFirst_pairwise_key cs))
      (hperm.map distance)
    intro x y hx hy hxy hyx
    obtain ⟨a, ha, rfl⟩ := List.mem_map.1 hx
    obtain ⟨b, hb, rfl⟩ := List.mem_map.1 hy
    exact heq a ha b hb hxy hyx
  · refine List.Perm.eq_of_pairwise (fun a b ha hb hab hba => ?_) hs (bestFirst_pairwise_key cs)
      hperm
    exact List.inj_on_of_nodup_map hd (hp.mem_iff.1 ha) (hbest.mem_iff.1 hb) (heq a ha b hb hab hba)

end Candidate

namespace Frontier

variable {value : Nat → Binary32} {q : Binary32} {n m : Nat} {dist : Nat → Nat}

/-- The distances of `n` positions fall before `m` and rise from there, and the comparison of two
differences compares the distances of a position on each side. -/
structure Valley (value : Nat → Binary32) (q : Binary32) (n m : Nat) (dist : Nat → Nat) : Prop where
  falls : ∀ {i j}, i ≤ j → j < m → dist j ≤ dist i
  rises : ∀ {i j}, m ≤ i → i ≤ j → j < n → dist i ≤ dist j
  nearer : ∀ {l r}, l < m → m ≤ r → r < n →
    ((q - value l).lt (value r - q) = true ↔ dist l < dist r)

/-- Left positions are before `m`, right ones are not. -/
def Around (n m : Nat) : Frontier → Prop
  | both l r => l < m ∧ m ≤ r ∧ r < n
  | left i => i < m ∧ i < n
  | right i => m ≤ i ∧ i < n
  | exhausted => True

theorem Around.inside {f : Frontier} (h : f.Around n m) : f.Inside n := by
  cases f with
  | both l r =>
    obtain ⟨hl, hm, hr⟩ := h
    exact ⟨by omega, hr⟩
  | left i => exact h.2
  | right i => exact h.2
  | exhausted => trivial

theorem Around.next {f rest : Frontier} {i : Nat} (hf : f.Around n m)
    (h : f.next? value q n = some (i, rest)) : rest.Around n m := by
  cases f with
  | both l r =>
    obtain ⟨hl, hm, hr⟩ := hf
    simp only [next?] at h
    split at h
    · cases h
      cases i with
      | zero => exact ⟨hm, hr⟩
      | succ l => exact ⟨Nat.lt_of_succ_lt hl, hm, hr⟩
    · cases h
      split
      · exact ⟨hl, by omega⟩
      · exact ⟨hl, by omega, by omega⟩
  | left i =>
    obtain ⟨hm, hn⟩ := hf
    cases h
    cases i with
    | zero => trivial
    | succ i => exact ⟨Nat.lt_of_succ_lt hm, Nat.lt_of_succ_lt hn⟩
  | right i =>
    obtain ⟨hm, hn⟩ := hf
    cases h
    split
    · trivial
    · exact ⟨by omega, by omega⟩
  | exhausted => cases h

theorem Valley.left_le (hv : Valley value q n m dist) {l : Nat} (hl : l < m) :
    ∀ j ∈ List.range (l + 1), dist l ≤ dist j := by
  intro j hj
  exact hv.falls (Nat.le_of_lt_succ (List.mem_range.1 hj)) hl

theorem Valley.right_le (hv : Valley value q n m dist) {r : Nat} (hr : m ≤ r) :
    ∀ j ∈ List.range' r (n - r), dist r ≤ dist j := by
  intro j hj
  obtain ⟨hrj, hjn⟩ := List.mem_range'_1.1 hj
  exact hv.rises hr hrj (by omega)

/-- A step takes a nearest position of those left. -/
theorem next?_nearest (hv : Valley value q n m dist) {f rest : Frontier} {i : Nat}
    (hf : f.Around n m) (h : f.next? value q n = some (i, rest)) :
    ∀ j ∈ f.remaining n, dist i ≤ dist j := by
  cases f with
  | both l r =>
    obtain ⟨hl, hm, hr⟩ := hf
    have hcmp := hv.nearer hl hm hr
    simp only [remaining, List.mem_append]
    simp only [next?] at h
    split at h
    · next hlt =>
      cases h
      have hle := Nat.le_of_lt (hcmp.1 hlt)
      rintro j (hj | hj)
      · exact hv.left_le hl j hj
      · exact Nat.le_trans hle (hv.right_le hm j hj)
    · next hlt =>
      cases h
      have hle := Nat.not_lt.1 (hcmp.not.1 hlt)
      rintro j (hj | hj)
      · exact Nat.le_trans hle (hv.left_le hl j hj)
      · exact hv.right_le hm j hj
  | left i => cases h; exact hv.left_le hf.1
  | right i => cases h; exact hv.right_le hf.1
  | exhausted => cases h

theorem given_nearest (hv : Valley value q n m dist) (k : Nat) {f : Frontier} (hf : f.Around n m) :
    (given value q n k f).Pairwise fun i j => dist i ≤ dist j := by
  induction k generalizing f with
  | zero => exact .nil
  | succ k ih =>
    simp only [given]
    split
    · next i rest hnext =>
      obtain ⟨hrest, hperm⟩ := next?_perm hf.inside hnext
      refine .cons (fun j hj => next?_nearest hv hf hnext j ?_) (ih (hf.next hnext))
      have hleft : j ∈ rest.remaining n :=
        (given_perm value q k hrest).1.mem_iff.2 (List.mem_append_left _ hj)
      exact hperm.mem_iff.2 (List.mem_cons_of_mem i hleft)
    · exact .nil

/-- The walk starts around the place of the query. -/
theorem around_behind (hm : m ≤ n) (hpos : 0 < n) : (behind n m).Around n m := by
  unfold behind
  split
  · exact ⟨by omega, hpos⟩
  · split
    · exact ⟨by omega, by omega⟩
    · exact ⟨by omega, Nat.le_refl m, by omega⟩

end Frontier

namespace SortedAxis

variable {s : SortedAxis} {x : Floats} {q : Binary32} {k i : Nat} {out : Slots}

/-- The query has a difference to every stored value, infinite or not. So no value is NaN, nor is
the query if there are values. -/
def Measures (values : Floats) (q : Binary32) : Prop := ∀ v ∈ values, ¬(q - v).isNaN = true

instance (values : Floats) (q : Binary32) : Decidable (Measures values q) :=
  inferInstanceAs (Decidable (∀ v ∈ values, ¬_))

def offset (s : SortedAxis) (q : Binary32) (i : Nat) : Nat := (q - s.valueAt i).magnitude

theorem getD_mem {values : Floats} {l : Nat} (hl : l < values.size) :
    values.getD l .zero ∈ values := by
  simp [Array.getD, hl]

theorem valueAt_mem (h : Argsort s.values s.count s.order) (hi : i < s.order.size) :
    s.valueAt i ∈ s.values :=
  getD_mem (labelAt_lt h hi)

theorem sub_valueAt (h : Argsort s.values s.count s.order) (hd : Measures s.values q)
    (hi : i < s.order.size) : ¬(q - s.valueAt i).isNaN = true :=
  hd _ (valueAt_mem h hi)

theorem not_isNaN_valueAt (h : Argsort s.values s.count s.order) (hd : Measures s.values q)
    (hi : i < s.order.size) : ¬q.isNaN = true ∧ ¬(s.valueAt i).isNaN = true :=
  Binary32.not_isNaN_of_not_isNaN_sub (sub_valueAt h hd hi)

/-- Rounded differences are not negative up to the query and not positive from there, and fall all
the way. -/
theorem valley (h : Argsort s.values s.count s.order) (hd : Measures s.values q) {m : Nat}
    (hm : Frontier.Splits s.valueAt q s.order.size m) (hle : m ≤ s.order.size) :
    Frontier.Valley s.valueAt q s.order.size m (s.offset q) := by
  have hdiff : ∀ i < s.order.size, ¬(q - s.valueAt i).isNaN = true := fun i hi =>
    sub_valueAt h hd hi
  have hle_iff : ∀ i < s.order.size, (s.valueAt i).key ≤ q.key ↔ i < m := by
    intro i hi
    obtain ⟨hq, hv⟩ := not_isNaN_valueAt h hd hi
    rw [← Binary32.le_iff hv hq, hm i hi]
  have hbelow : ∀ i < m, 0 ≤ (q - s.valueAt i).key := by
    intro i hi
    have hin : i < s.order.size := by omega
    exact Binary32.sub_key_nonneg (hdiff i hin) ((hle_iff i hin).2 hi)
  have habove : ∀ i < s.order.size, m ≤ i → (q - s.valueAt i).key ≤ 0 := by
    intro i hi hmi
    have hgt : ¬(s.valueAt i).key ≤ q.key := fun hle => Nat.not_lt.2 hmi ((hle_iff i hi).1 hle)
    exact Binary32.sub_key_nonpos (hdiff i hi) (by omega)
  have hmono : ∀ {i j}, i ≤ j → j < s.order.size →
      (q - s.valueAt j).key ≤ (q - s.valueAt i).key := fun {i j} hij hj =>
    Binary32.sub_key_le (hdiff i (by omega)) (hdiff j hj) (valueAt_key_le h.ascends hij hj)
  have hoffset : ∀ i, s.offset q i = (q - s.valueAt i).key.natAbs := fun i =>
    (Binary32.natAbs_key _).symm
  refine ⟨fun {i j} hij hj => ?_, fun {i j} hi hij hj => ?_, fun {l r} hl hr hn => ?_⟩
  · have hle' := hmono hij (by omega)
    have hj0 := hbelow j hj
    rw [hoffset, hoffset]
    omega
  · have hle' := hmono hij hj
    have hi0 := habove i (by omega) hi
    rw [hoffset, hoffset]
    omega
  · have hl0 := hbelow l hl
    have hr0 := habove r hn hr
    obtain ⟨hback, hkey⟩ := Binary32.sub_key_comm (hdiff r hn)
    rw [Binary32.lt_iff (hdiff l (by omega)) hback, hkey, hoffset, hoffset]
    omega

theorem exists_valley (h : Argsort s.values s.count s.order) (hd : Measures s.values q)
    (hpos : 0 < s.order.size) : ∃ m, Frontier.Valley s.valueAt q s.order.size m (s.offset q) ∧
      (Frontier.locate s.valueAt q s.order.size).Around s.order.size m := by
  have hq : ¬q.isNaN = true := (not_isNaN_valueAt h hd hpos).1
  have hn : ∀ i < s.order.size, ¬(s.valueAt i).isNaN = true := fun i hi =>
    (not_isNaN_valueAt h hd hi).2
  obtain ⟨m, hle, hm⟩ :=
    Frontier.exists_splits hn (fun i j hij hj => valueAt_key_le h.ascends hij hj) hq
  refine ⟨m, valley h hd hm hle, ?_⟩
  rw [Frontier.locate_eq_behind hm hle hpos hn hq]
  exact Frontier.around_behind hle hpos

/-! ## Rows -/

/-- All results for a query, the nearest one first. -/
def nearestFirst (s : SortedAxis) (q : Binary32) : List Candidate :=
  (s.positions s.count q).map (s.candidateAt q)

def allCandidates (values : Floats) (q : Binary32) : List Candidate :=
  (List.range values.size).map (candidateOf values q)

theorem not_undecided (hd : Measures s.values q) : ¬s.Undecided q := by
  rintro ⟨hone, hnan⟩
  have hpos : 0 < s.values.size := by rw [← count, hone]; exact Nat.one_pos
  obtain ⟨hq, hv⟩ := Binary32.not_isNaN_of_not_isNaN_sub (hd _ (getD_mem hpos))
  exact hnan.elim hq hv

theorem remaining_locate (h : Argsort s.values s.count s.order) (hu : ¬s.Undecided q) :
    (Frontier.locate s.valueAt q s.order.size).remaining s.order.size = List.range s.count := by
  rw [(Frontier.locate_spec s.valueAt q s.order.size).2 ((undecided_iff h).not.1 hu), h.size_eq]

theorem searchRow_eq_take (h : Argsort s.values s.count s.order) (hu : ¬s.Undecided q) (k : Nat) :
    s.searchRow k q = (s.nearestFirst q).take k ++ List.replicate (k - s.count) .padding := by
  have hin := (Frontier.locate_spec s.valueAt q s.order.size).1
  have htake := Frontier.given_eq_take_all s.valueAt q hin k
  have hlen := Frontier.length_given s.valueAt q k hin
  rw [remaining_locate h hu, List.length_range] at htake hlen
  have hrest : k - (s.positions k q).length = k - s.count := by
    rw [positions, hlen]
    omega
  rw [searchRow_eq, hrest, positions, htake, List.map_take]
  rfl

theorem nearestFirst_perm (h : Argsort s.values s.count s.order) (hu : ¬s.Undecided q) :
    (s.nearestFirst q).Perm (allCandidates s.values q) := by
  have hin := (Frontier.locate_spec s.valueAt q s.order.size).1
  have hall : (s.positions s.count q).Perm (List.range s.count) := by
    have hlen : (List.range s.count).length ≤ s.count := by simp
    rw [← remaining_locate h hu] at hlen ⊢
    exact Frontier.given_perm_remaining hin hlen
  have hlabels : ((s.positions s.count q).map s.labelAt).Perm (List.range s.count) := by
    have hsorted := map_labelAt_range s
    rw [h.size_eq] at hsorted
    refine (hall.map s.labelAt).trans ?_
    rw [hsorted]
    exact h.perm
  have hrow := hlabels.map (candidateOf s.values q)
  rwa [List.map_map] at hrow

theorem nearestFirst_pairwise (h : Argsort s.values s.count s.order) (hd : Measures s.values q) :
    (s.nearestFirst q).Pairwise fun a b => a.distance.key ≤ b.distance.key := by
  rcases Nat.eq_zero_or_pos s.order.size with hzero | hpos
  -- Only without values can the query itself be no number.
  · have hempty : s.positions s.count q = [] := by rw [positions, ← h.size_eq, hzero]; rfl
    rw [nearestFirst, hempty]
    exact .nil
  · obtain ⟨m, hvalley, haround⟩ := exists_valley h hd hpos
    have hin : ∀ i ∈ s.positions s.count q, i < s.order.size :=
      (Frontier.given_locate s.count ((undecided_iff h).not.1 (not_undecided hd))).2.1
    have hnear := Frontier.given_nearest hvalley s.count haround
    refine List.pairwise_map.2 (hnear.imp_of_mem fun {i j} hi hj hij => ?_)
    exact Binary32.mul_self_key_le (sub_valueAt h hd (hin i hi)) (sub_valueAt h hd (hin j hj)) hij

/-! ## The same in a flat index -/

theorem allCandidates_spec {values : Floats} (hd : Measures values q) :
    ∀ c ∈ allCandidates values q,
      c.IsNumber ∧ c.distance.negative = false ∧ c.label ≠ noLabel := by
  intro c hc
  obtain ⟨l, hl, rfl⟩ := List.mem_map.1 hc
  have hnum := hd _ (getD_mem (List.mem_range.1 hl))
  have hlabel : ((l : Nat) : Int) ≠ -1 := by omega
  exact ⟨Binary32.not_isNaN_mul_self hnum, Binary32.mul_self_negative hnum, hlabel⟩

theorem flat_candidates (hd : Measures s.values q) :
    s.flat.candidates #[q] = allCandidates s.values q := by
  rw [Flat.candidates, count_flat]
  refine List.map_congr_left fun l hl => ?_
  have hlt : l < s.values.size := List.mem_range.1 hl
  have hrow : rowOf s.flat.dimension s.flat.vectors l = #[s.values[l]] := rowOf_one hlt
  have hnum := hd s.values[l] (Array.getElem_mem hlt)
  have hvalue : s.values.getD l .zero = s.values[l] := by simp [Array.getD, hlt]
  have hsum := Binary32.negZero_add (Binary32.not_isNaN_mul_self hnum)
    (Binary32.mul_self_negative hnum)
  rw [hrow, candidateOf, hvalue]
  exact congrArg (Candidate.mk · l) hsum

theorem search_flat (h : (Index.search s x k out).answer = .ok ()) :
    Index.search s.flat x k out =
      .done (Scan.nearest .l2 x s.values 1 k out.distances.size) := by
  obtain ⟨nq, hshape⟩ := checkShape_of_search h
  exact Flat.search_of_shape s.flat hshape

theorem flat_row (h : (Index.search s x k out).answer = .ok ()) (hi : i < x.size)
    (hroom : (i + 1) * k ≤ out.distances.size) (hd : Measures s.values x[i]) :
    (Index.search s.flat x k out).state.row k i = .ofCandidates
      ((Candidate.bestFirst .l2 (allCandidates s.values x[i])).take k ++
        List.replicate (k - s.count) .padding) := by
  have hcs : s.flat.candidates (rowOf s.flat.dimension x i) = allCandidates s.values x[i] := by
    rw [← flat_candidates hd, ← rowOf_one hi]
    rfl
  have hi' : i < x.size / s.flat.dimension := Nat.lt_of_lt_of_eq hi (Nat.div_one _).symm
  have hrow := s.flat.nearest_row hi' hroom fun c hc =>
    (allCandidates_spec hd c (by rwa [hcs] at hc)).1
  rw [hcs, count_flat] at hrow
  rw [search_flat h]
  exact hrow

/-- The empty slots of a row are those behind its candidates. -/
theorem label_eq_noLabel_iff {cs : List Candidate} (h : ∀ c ∈ cs, c.label ≠ noLabel) (p j : Nat) :
    (Slots.ofCandidates (cs ++ List.replicate p .padding)).labels[j]? = some noLabel ↔
      cs.length ≤ j ∧ j < cs.length + p := by
  simp only [Slots.ofCandidates, List.map_append, List.map_replicate, List.getElem?_toArray]
  rcases Nat.lt_or_ge j cs.length with hj | hj
  · rw [List.getElem?_append_left (by simpa using hj), List.getElem?_map,
      List.getElem?_eq_getElem hj]
    refine iff_of_false (fun he => h _ (List.getElem_mem hj) (Option.some.inj he)) ?_
    omega
  · rw [List.getElem?_append_right (by simpa using hj), List.length_map, List.getElem?_replicate]
    by_cases hp : j - cs.length < p
    · rw [if_pos hp]
      exact iff_of_true rfl ⟨hj, by omega⟩
    · rw [if_neg hp]
      refine iff_of_false (fun he => by cases he) ?_
      omega

/-- Where a search succeeds it also succeeds in a flat index of the same values. For each query with
slots in the buffers and a difference to every value, the two rows have the same distances and the
same empty slots. Each label names a value at that distance, and the labels are the same if no
distance is there twice. -/
theorem Reachable.search_agrees (hs : Reachable s) (h : (Index.search s x k out).answer = .ok ()) :
    (Index.search s.flat x k out).answer = .ok () ∧
    ∀ (i : Nat) (hi : i < x.size), (i + 1) * k ≤ out.distances.size → Measures s.values x[i] →
      let row := (Index.search s x k out).state.row k i
      let flatRow := (Index.search s.flat x k out).state.row k i
      row.distances = flatRow.distances ∧
      Covers s.values x[i] k row ∧
      (∀ j : Nat, row.labels[j]? = some noLabel ↔ flatRow.labels[j]? = some noLabel) ∧
      (((List.range s.count).map fun l => (candidateOf s.values x[i] l).distance).Nodup →
        row.labels = flatRow.labels) := by
  have hsort := hs.ordered.argsort_of_isCurrent (isCurrent_of_search h)
  refine ⟨by rw [search_flat h]; rfl, fun i hi hroom hd => ?_⟩
  have hu := not_undecided hd
  have hspec := allCandidates_spec hd
  -- Both rows are the beginnings of the same candidates in ascending order of distance.
  have hperm := nearestFirst_perm hsort hu
  have hbest := Candidate.bestFirst_perm .l2 (allCandidates s.values x[i])
  obtain ⟨hdist, hsame⟩ := Candidate.eq_bestFirst_of_pairwise_key hperm
    (nearestFirst_pairwise hsort hd) fun c hc => (hspec c hc).2.1
  have hcovers := covers_searchRow hsort hu k
  rw [← search_row h hi hroom] at hcovers
  rw [flat_row h hi hroom hd]
  rw [search_row h hi hroom, searchRow_eq_take hsort hu] at hcovers ⊢
  refine ⟨?_, hcovers, fun j => ?_, fun hnodup => ?_⟩
  · simp only [Slots.ofCandidates, List.map_append, List.map_take, hdist]
  · rw [label_eq_noLabel_iff, label_eq_noLabel_iff, List.length_take, List.length_take,
      hperm.length_eq, hbest.length_eq]
    · exact fun c hc => (hspec c (hbest.mem_iff.1 (List.mem_of_mem_take hc))).2.2
    · exact fun c hc => (hspec c (hperm.mem_iff.1 (List.mem_of_mem_take hc))).2.2
  · rw [hsame (by rw [allCandidates, List.map_map]; exact hnodup)]

/-- An infinite value, and a query that is stored. -/
theorem search_agrees_infinity :
    let s := (Index.add (empty {}) #[.zero, .infinity, .one]).state
    let out : Slots := ⟨.replicate 4 .zero, .replicate 4 0⟩
    (Index.search s #[.one] 4 out).answer = .ok () ∧ Measures s.values .one ∧
      (Index.search s #[.one] 4 out).state.row 4 0 =
        (Index.search s.flat #[.one] 4 out).state.row 4 0 := by
  intro s out
  have hs : Reachable s := .add _ (.empty _)
  have hok : (Index.search s #[.one] 4 out).answer = .ok () := by
    rw [search_answer, if_pos ((isCurrent_iff s).2 (hs.ordered.continuous rfl))]
    rfl
  have hd : Measures s.values .one := by decide
  obtain ⟨hdist, -, -, hlabels⟩ := (hs.search_agrees hok).2 0 (by decide) (by decide) hd
  exact ⟨hok, hd, congrArg₂ Slots.mk hdist (hlabels (by decide))⟩

end SortedAxis

end Neighbors
