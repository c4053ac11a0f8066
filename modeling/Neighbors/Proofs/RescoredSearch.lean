import Neighbors.Proofs.Found
import Neighbors.Proofs.Listed

/-!
# Rescoring and searching

A search of a flat index and a rescoring of labels go through different scans. Slot `j` of query `i`
is the same for both (`Slots.HasSize.slot`), and there both write the distance that the vector under
the label has from the query, bit for bit (`Flat.rescore_agrees_with_search`). That is so of all
slots that there are, also of those that a product which has wrapped around leaves.
-/

namespace Neighbors

open Index

theorem Slots.HasSize.slot {s : Slots} {n k i j : Nat} (hs : s.HasSize n) (hj : j < k)
    (hslot : i * k + j < n) : ∃ c, (s.row k i).candidates[j]? = some c ∧
      s.distances[i * k + j]? = some c.distance ∧ s.labels[i * k + j]? = some c.label := by
  have hwidth : (i + 1) * k = i * k + k := Nat.succ_mul i k
  have hd := hs.distances
  have hl := hs.labels
  have hdslot : i * k + j < s.distances.size := by omega
  have hlslot : i * k + j < s.labels.size := by omega
  refine ⟨⟨s.distances[i * k + j], s.labels[i * k + j]⟩, ?_, Array.getElem?_eq_getElem hdslot,
    Array.getElem?_eq_getElem hlslot⟩
  have hlen : j < (s.row k i).candidates.length := by
    simp only [Slots.candidates, Slots.row, List.length_zipWith, Array.length_toList,
      Array.size_extract]
    omega
  rw [List.getElem?_eq_getElem hlen]
  simp [Slots.row, Slots.candidates]

theorem Slots.HasSize.lt_of_label {s : Slots} {n slot : Nat} {l : Label} (hs : s.HasSize n)
    (hl : s.labels[slot]? = some l) : slot < n := by
  obtain ⟨hslot, -⟩ := Array.getElem?_eq_some_iff.1 hl
  exact hs.labels ▸ hslot

namespace Flat

variable {f : Flat} {x : Floats} {k n : Nat} {out found : Slots}

theorem checkShape_of_hasSize (hwhole : x.size % f.dimension = 0)
    (hsize : out.HasSize (Count.mul (x.size / f.dimension) k)) :
    checkShape f.dimension x k out = .ok (x.size / f.dimension) :=
  checkShape_eq_ok_iff.2 ⟨rowCount_eq_ok_iff.2 ⟨f.storage.dimension_pos, hwhole, rfl⟩, hsize⟩

theorem hasSize_of_search (h : Index.search f x k out = .done found) :
    found.HasSize (Count.mul (x.size / f.dimension) k) := by
  obtain ⟨nq, hshape, hsize⟩ := f.fillsBuffers.search h
  rwa [eq_div_of_checkShape hshape] at hsize

/-- A search writes for each label it finds the distance of its vector. -/
theorem distance_of_search (h : Index.search f x k out = .done found) {i j : Nat} {l : Label}
    (hi : i < x.size / f.dimension) (hj : j < k) (hl : found.labels[i * k + j]? = some l)
    (hne : l ≠ noLabel) :
    found.distances[i * k + j]? = some (f.score (rowOf f.dimension x i) l.toNat) := by
  have hsize := hasSize_of_search h
  obtain ⟨c, hc, hdistance, hlabel⟩ := hsize.slot hj (hsize.lt_of_label hl)
  cases hl.symm.trans hlabel
  obtain ⟨-, rfl⟩ := f.search_eq_done_iff.1 h
  have hmem := List.mem_of_getElem? hc
  have hproposable := Scan.proposable_of_mem_best (Slots.label_mem_of_mem_row hmem)
  obtain ⟨hpos, -⟩ := Label.isStored_iff.1 ((Label.proposable_iff.1 hproposable).resolve_left hne)
  have hlists : ((Scan.nearest f.metric x f.vectors f.dimension k out.distances.size).row k i).Lists
      f.count (min k (out.distances.size - i * k)) (f.score (rowOf f.dimension x i)) :=
    Scan.lists_best_cut hi
  rw [hdistance, hlists.distance_of_label hmem (Int.toNat_of_nonneg hpos).symm]

/-- A search for as many results as there are vectors finds every one of them for each query. -/
theorem finds_all (h : Index.search f x f.count out = .done found)
    (hfits : x.size / f.dimension * f.count ≤ Count.limit) {i l : Nat}
    (hi : i < x.size / f.dimension) (hl : l < f.count) :
    ∃ j < f.count, found.labels[i * f.count + j]? = some (l : Label) := by
  have hsize := hasSize_of_search h
  rw [Count.mul_eq hfits] at hsize
  obtain ⟨⟨nq, hshape⟩, rfl⟩ := f.search_eq_done_iff.1 h
  have hshape' := WellShaped.of_checkShape hshape hfits
  have hlists : Slots.Lists f.count f.count (f.score (rowOf f.dimension x i)) (Slots.row
      (Scan.nearest f.metric x f.vectors f.dimension f.count out.distances.size) f.count i) :=
    Scan.lists_best hi (hshape'.room (hshape'.eq_div ▸ hi))
  obtain ⟨labels, -, -, hlen, hall, hrow⟩ := hlists
  have hmem : l ∈ labels := (hall (Nat.le_refl _)).mem_iff.2 (List.mem_range.2 hl)
  obtain ⟨j, hj, hjl⟩ := List.mem_iff_getElem.1 hmem
  have hjcount : j < f.count := by omega
  have hend : (i + 1) * f.count ≤ x.size / f.dimension * f.count := Nat.mul_le_mul_right _ hi
  rw [Nat.succ_mul] at hend
  obtain ⟨c, hc, -, hlabel⟩ := hsize.slot (i := i) hjcount (by omega)
  refine ⟨j, hjcount, hlabel.trans ?_⟩
  rw [hrow, Slots.candidates_ofCandidates, List.getElem?_append_left (by simpa using hj),
    List.getElem?_map, List.getElem?_eq_getElem hj, hjl] at hc
  cases hc
  rfl

theorem finds_stored (hwhole : x.size % f.dimension = 0) {l : Label}
    (hl : l.isStored f.count = true) (hfits : x.size / f.dimension * f.count ≤ Count.limit)
    (hout : out.HasSize (x.size / f.dimension * f.count)) {i : Nat}
    (hi : i < x.size / f.dimension) : ∃ found, Index.search f x f.count out = .done found ∧
      ∃ j < f.count, found.labels[i * f.count + j]? = some l := by
  rw [← Count.mul_eq hfits] at hout
  have hfound := f.search_eq_done_iff.2 ⟨⟨_, checkShape_of_hasSize hwhole hout⟩, rfl⟩
  obtain ⟨hpos, hlt⟩ := Label.isStored_iff.1 hl
  obtain ⟨m, rfl⟩ := Int.eq_ofNat_of_zero_le hpos
  exact ⟨_, hfound, finds_all hfound hfits hi (Int.ofNat_lt.1 hlt)⟩

theorem slot_rescored {i j : Nat} {l : Label} (hsize : out.HasSize n)
    (hi : i < x.size / f.dimension) (hj : j < k) (hl : out.labels[i * k + j]? = some l) :
    (f.rescored x k out).distances[i * k + j]? =
      some (if l = noLabel then f.metric.worst
        else f.score (rowOf f.dimension x i) l.toNat) := by
  have hslot : i * k + j < (f.rescored x k out).distances.size := by
    rw [size_distances_rescored, hsize.distances]
    exact hsize.lt_of_label hl
  obtain ⟨hlslot, rfl⟩ := Array.getElem?_eq_some_iff.1 hl
  rw [Array.getElem?_eq_getElem hslot, distances_rescored hslot hlslot (Nat.ne_zero_of_lt hj)
    (by rwa [div_slot hj]), div_slot hj]
  rfl

theorem rescore_eq_ok_iff : (f.rescore x k out).answer = .ok () ↔
    x.size % f.dimension = 0 ∧ out.HasSize (Count.mul (x.size / f.dimension) k) ∧
      ∀ l ∈ out.labels, l.Proposable f.count := by
  constructor
  · intro h
    obtain ⟨⟨nq, hshape⟩, hlabels⟩ := rescore_ok h
    obtain ⟨hrows, hsize⟩ := checkShape_eq_ok_iff.1 hshape
    obtain ⟨-, hwhole, rfl⟩ := rowCount_eq_ok_iff.1 hrows
    exact ⟨hwhole, hsize, hlabels⟩
  · rintro ⟨hwhole, hsize, hlabels⟩
    have hdone := rescore_of_proposable (checkShape_of_hasSize hwhole hsize) hlabels
    exact congrArg Outcome.answer hdone

theorem rescore_of_found {other : Slots} (h : Index.search f x k other = .done found)
    (hlabels : out.labels = found.labels)
    (hdistances : out.distances.size = found.distances.size) :
    f.rescore x k out = .done (f.rescored x k out) := by
  obtain ⟨⟨nq, hshape⟩, hfound⟩ := f.search_eq_done_iff.1 h
  have hsize := hasSize_of_search h
  rw [← eq_div_of_checkShape hshape] at hsize
  have hout : out.HasSize (Count.mul nq k) :=
    ⟨hdistances.trans hsize.distances, hlabels ▸ hsize.labels⟩
  have hshape' := checkShape_eq_ok_iff.2 ⟨rowCount_of_checkShape hshape, hout⟩
  refine rescore_of_proposable hshape' fun l hl => ?_
  rw [hlabels, hfound] at hl
  exact Scan.proposable_of_mem_best hl

/-- Scored again, a label gets the distance that it was found with. -/
theorem distance_of_found {other : Slots} (h : Index.search f x k other = .done found)
    (hlabels : out.labels = found.labels)
    (hdistances : out.distances.size = found.distances.size) {i j : Nat}
    (hi : i < x.size / f.dimension) (hj : j < k)
    (hne : found.labels[i * k + j]? ≠ some noLabel) :
    (f.rescored x k out).distances[i * k + j]? = found.distances[i * k + j]? := by
  have hfound := hasSize_of_search h
  have hsize : out.HasSize (Count.mul (x.size / f.dimension) k) :=
    ⟨hdistances.trans hfound.distances, hlabels ▸ hfound.labels⟩
  cases hl : found.labels[i * k + j]? with
  | none =>
    have hend := Array.getElem?_eq_none_iff.1 hl
    rw [hfound.labels] at hend
    rw [Array.getElem?_eq_none (by rwa [size_distances_rescored, hsize.distances]),
      Array.getElem?_eq_none (by rwa [hfound.distances])]
  | some l =>
    have hlabel : l ≠ noLabel := fun hnone => hne (hnone ▸ hl)
    rw [slot_rescored hsize hi hj (hlabels ▸ hl), if_neg hlabel,
      distance_of_search h hi hj hl hlabel]

theorem rescore_first_stray (hwhole : x.size % f.dimension = 0)
    (hsize : out.HasSize (Count.mul (x.size / f.dimension) k))
    (hstray : ∃ l ∈ out.labels, ¬l.Proposable f.count) :
    ∃ (slot : Nat) (l : Label), out.labels[slot]? = some l ∧ ¬l.Proposable f.count ∧
      (∀ earlier < slot, ∀ l' : Label, out.labels[earlier]? = some l' → l'.Proposable f.count) ∧
      f.rescore x k out = .fail (.labelOutOfRange l f.count) out := by
  obtain ⟨slot, hslot, hbad, hbefore, hleft⟩ :=
    rescore_of_stray (checkShape_of_hasSize hwhole hsize) hstray
  refine ⟨slot, out.labels[slot], Array.getElem?_eq_getElem hslot, hbad,
    fun earlier hearlier l' hl' => ?_, hleft⟩
  rw [Array.getElem?_eq_getElem (hearlier.trans hslot)] at hl'
  cases hl'
  exact hbefore earlier hearlier

/-- A rescoring succeeds just if the queries are whole, both buffers have as many slots as the
product of queries and `k` comes to, and every label is stored or that of an empty slot. The product
is `nq * k` as long as that has 64 bits, and what is left of it otherwise. After a success slot `j`
of query `i` has the worst distance if it is empty, and else the distance of its vector: the one
that every search writes next to that label for the same query, and a search for all vectors does.
So the labels that a search has found get the distances that it found. If there is nothing wrong but
the labels, the first one in the buffer that is not stored is reported. A rescoring that fails
leaves the slots alone. -/
theorem rescore_agrees_with_search (f : Flat) (x : Floats) (k : Nat) (out : Slots) :
    let d := f.dimension
    let nq := x.size / d
    let size := Count.mul nq k
    let left := f.rescore x k out
    (nq * k ≤ Count.limit → size = nq * k) ∧
    (left.answer = .ok () ↔
      x.size % d = 0 ∧ out.HasSize size ∧ ∀ l ∈ out.labels, l.Proposable f.count) ∧
    (left.answer = .ok () → left.state.labels = out.labels ∧ left.state.HasSize size ∧
      ∀ i < nq, ∀ j < k, ∀ l, out.labels[i * k + j]? = some l →
        (l = noLabel → left.state.distances[i * k + j]? = some f.metric.worst) ∧
        (l ≠ noLabel →
          left.state.distances[i * k + j]? =
            some (f.metric.distance (rowOf d x i) (rowOf d f.vectors l.toNat)) ∧
          (∀ y k' out' found, Index.search f y k' out' = .done found →
            ∀ i' < y.size / d, rowOf d y i' = rowOf d x i → ∀ j' < k',
              found.labels[i' * k' + j']? = some l →
                found.distances[i' * k' + j']? = left.state.distances[i * k + j]?) ∧
          (nq * f.count ≤ Count.limit → ∀ out' : Slots, out'.HasSize (nq * f.count) → ∃ found,
            Index.search f x f.count out' = .done found ∧
              ∃ j' < f.count, found.labels[i * f.count + j']? = some l))) ∧
    (∀ out' found, Index.search f x k out' = .done found → out.labels = found.labels →
      out.distances.size = found.distances.size → left.answer = .ok () ∧
        ∀ i < nq, ∀ j < k, found.labels[i * k + j]? ≠ some noLabel →
          left.state.distances[i * k + j]? = found.distances[i * k + j]?) ∧
    (x.size % d = 0 → out.HasSize size → (∃ l ∈ out.labels, ¬l.Proposable f.count) →
      ∃ (slot : Nat) (l : Label), out.labels[slot]? = some l ∧ ¬l.Proposable f.count ∧
        (∀ earlier < slot, ∀ l' : Label, out.labels[earlier]? = some l' →
          l'.Proposable f.count) ∧
        left = .fail (.labelOutOfRange l f.count) out) ∧
    left.Atomic out := by
  intro d nq size left
  refine ⟨Count.mul_eq, rescore_eq_ok_iff, fun hok => ?_,
    fun out' found hfound hlabels hdistances => ?_, rescore_first_stray, f.rescore_atomic x k out⟩
  · obtain ⟨hwhole, hsize, hlabels⟩ := rescore_eq_ok_iff.1 hok
    have hleft : left = .done (f.rescored x k out) :=
      rescore_of_proposable (checkShape_of_hasSize hwhole hsize) hlabels
    rw [hleft]
    refine ⟨rfl, ⟨(size_distances_rescored f x k out).trans hsize.distances, hsize.labels⟩,
      fun i hi j hj l hl => ?_⟩
    have hslot := slot_rescored hsize hi hj hl
    refine ⟨fun hnone => by rwa [if_pos hnone] at hslot, fun hne => ?_⟩
    rw [if_neg hne] at hslot
    refine ⟨hslot, fun y k' out' found hfound i' hi' hq j' hj' hl' => ?_,
      fun hfits out' hout' => ?_⟩
    · rw [distance_of_search hfound hi' hj' hl' hne, hq]
      exact hslot.symm
    · have hproposable := Label.proposable_iff.1 (hlabels l (Array.mem_of_getElem? hl))
      exact finds_stored hwhole (hproposable.resolve_left hne) hfits hout' hi
  · have hleft : left = .done (f.rescored x k out) := rescore_of_found hfound hlabels hdistances
    rw [hleft]
    exact ⟨rfl, fun i hi j hj => distance_of_found hfound hlabels hdistances hi hj⟩

/-- A NaN, slots behind the last vector, a distance that overflows, and labels of no vector. Three
times `k` slots come to two, and so two slots are enough. -/
theorem rescore_agrees_with_search_nan :
    let huge : Binary32 := ⟨false, 0x7f000000, by decide⟩
    let f : Flat := ⟨⟨1, #[.one, .nan, huge], by decide, by decide⟩, .l2⟩
    let x : Floats := #[.zero, .one]
    let found := (Index.search f x 4 ⟨.replicate 8 .one, .replicate 8 7⟩).state
    let left := f.rescore x 4 ⟨.replicate 8 .nan, found.labels⟩
    let stray : Slots := ⟨.replicate 4 .one, #[2, noLabel, 3, -2]⟩
    left.answer = .ok () ∧ found.labels[4]? = some 1 ∧
      left.state.distances[4]? = found.distances[4]? ∧
      found.labels[3]? = some noLabel ∧ left.state.distances[3]? = some .infinity ∧
      (∃ (slot : Nat) (l : Label), stray.labels[slot]? = some l ∧ ¬l.Proposable 3 ∧
        f.rescore x 2 stray = .fail (.labelOutOfRange l 3) stray) ∧
      (f.rescore #[.zero, .zero, .zero] 6148914691236517206
        ⟨#[.nan, .nan], #[0, noLabel]⟩).answer = .ok () := by
  intro huge f x found left stray
  have hfound : Index.search f x 4 ⟨.replicate 8 .one, .replicate 8 7⟩ = .done found :=
    Outcome.eq_done (by decide +kernel)
  have hcount : f.count = 3 := by decide
  have hnan : found.labels[4]? = some 1 := by decide +kernel
  have hnone : found.labels[3]? = some noLabel := by decide +kernel
  obtain ⟨-, -, hslots, hagain, -, -⟩ :=
    rescore_agrees_with_search f x 4 ⟨.replicate 8 .nan, found.labels⟩
  obtain ⟨hok, hdistances⟩ := hagain _ found hfound rfl (by decide +kernel)
  have hsame := hdistances 1 (by decide) 0 (by decide) (by decide +kernel)
  obtain ⟨-, -, hslot⟩ := hslots hok
  have hworst := (hslot 0 (by decide) 3 (by decide) noLabel hnone).1 rfl
  obtain ⟨-, -, -, -, hstray, -⟩ := rescore_agrees_with_search f x 2 stray
  obtain ⟨slot, l, hl, hbad, -, hleft⟩ :=
    hstray (by decide) ⟨by decide, by decide⟩ ⟨3, by simp [stray], by decide⟩
  rw [hcount] at hbad hleft
  obtain ⟨-, hwrapped, -⟩ := rescore_agrees_with_search f #[.zero, .zero, .zero]
    6148914691236517206 ⟨#[.nan, .nan], #[0, noLabel]⟩
  exact ⟨hok, hnan, hsame, hnone, hworst, ⟨slot, l, hl, hbad, hleft⟩,
    hwrapped.2 ⟨by decide, by decide, by decide⟩⟩

end Flat

end Neighbors
