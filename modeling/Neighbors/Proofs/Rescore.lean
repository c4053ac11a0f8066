import Neighbors.Proofs.FlatSearch

/-!
# Named candidates scored again

A flat index scores the vectors that labels name (`Flat.candidateOf`). `Flat.rescore` either writes
those distances over the old ones, whatever these were (`rescore_of_proposable`, `rescored_row`), or
fails with the first label that is neither stored nor that of an empty slot (`rescore_of_stray`).
-/

namespace Neighbors

theorem Label.isStored_iff {l : Label} {n : Nat} : l.isStored n = true ↔ 0 ≤ l ∧ l < n := by
  rw [isStored, Bool.and_eq_true, decide_eq_true_eq, decide_eq_true_eq]
  exact and_congr_right fun h => Int.toNat_lt h

/-- Whether a base may put `l` into a slot: a stored vector, or none. -/
def Label.Proposable (count : Nat) (l : Label) : Prop := -1 ≤ l ∧ l < count

instance (count : Nat) (l : Label) : Decidable (l.Proposable count) :=
  inferInstanceAs (Decidable (_ ∧ _))

theorem Label.proposable_iff {l : Int} {n : Nat} :
    Label.Proposable n l ↔ l = noLabel ∨ Label.isStored l n = true := by
  rw [isStored_iff]
  show -1 ≤ l ∧ l < n ↔ l = -1 ∨ 0 ≤ l ∧ l < n
  omega

theorem Label.stray_iff {l : Label} {n : Nat} :
    (l ≠ noLabel && !l.isStored n) = true ↔ ¬l.Proposable n := by
  rw [proposable_iff]
  simp

theorem Label.proposable_noLabel (count : Nat) : Label.Proposable count noLabel :=
  Label.proposable_iff.2 (.inl rfl)

theorem Label.proposable_natCast {count j : Nat} (h : j < count) :
    Label.Proposable count (j : Int) := by
  show -1 ≤ (j : Int) ∧ (j : Int) < count
  omega

theorem Slots.HasSize.row {s : Slots} {n k i : Nat} (hs : s.HasSize (n * k)) (hi : i < n) :
    (s.row k i).HasSize k := by
  have hle : (i + 1) * k ≤ n * k := Nat.mul_le_mul_right k hi
  have hsucc : (i + 1) * k = i * k + k := Nat.succ_mul i k
  exact ⟨by simp only [Slots.row, Array.size_extract, hs.distances]; omega,
    by simp only [Slots.row, Array.size_extract, hs.labels]; omega⟩

theorem Slots.HasSize.row_zero {s : Slots} {k : Nat} (hs : s.HasSize k) : s.row k 0 = s := by
  simp only [Slots.row, Nat.zero_mul, Nat.zero_add, Nat.one_mul]
  rw [Array.extract_eq_self_of_le (Nat.le_of_eq hs.distances),
    Array.extract_eq_self_of_le (Nat.le_of_eq hs.labels)]

theorem Slots.eq_of_rows {a b : Slots} {n k : Nat} (ha : a.HasSize (n * k)) (hb : b.HasSize (n * k))
    (h : ∀ i < n, a.row k i = b.row k i) : a = b := by
  have hdistances : a.distances = b.distances :=
    array_eq_of_rows ha.distances hb.distances fun i hi => congrArg Slots.distances (h i hi)
  have hlabels : a.labels = b.labels :=
    array_eq_of_rows ha.labels hb.labels fun i hi => congrArg Slots.labels (h i hi)
  exact congrArg₂ Slots.mk hdistances hlabels

namespace Flat

variable (f : Flat)

/-- The vector under a label as a candidate for `q`. An empty slot has the worst distance. -/
def candidateOf (q : Floats) (l : Label) : Candidate :=
  ⟨if l = noLabel then f.metric.worst
    else f.metric.distance q (rowOf f.dimension f.vectors l.toNat), l⟩

@[simp] theorem label_candidateOf (q : Floats) (l : Label) : (f.candidateOf q l).label = l := rfl

theorem candidates_eq_map (q : Floats) :
    f.candidates q = (List.range f.count).map fun (j : Nat) => f.candidateOf q j := by
  refine List.map_congr_left fun j _ => ?_
  rw [candidateOf, if_neg (Label.natCast_ne_noLabel j), Int.toNat_natCast]

theorem consistent_map_candidateOf (q : Floats) (ls : List Label) :
    Candidate.Consistent (ls.map (f.candidateOf q)) := by
  intro a ha b hb hab
  obtain ⟨la, -, rfl⟩ := List.mem_map.1 ha
  obtain ⟨lb, -, rfl⟩ := List.mem_map.1 hb
  rw [label_candidateOf, label_candidateOf] at hab
  rw [hab]

theorem consistent_candidates (f : Flat) (q : Floats) : Candidate.Consistent (f.candidates q) := by
  have hmap : f.candidates q = ((List.range f.count).map Nat.cast).map (f.candidateOf q) := by
    rw [candidates_eq_map, List.map_map]
    rfl
  rw [hmap]
  exact f.consistent_map_candidateOf q _

theorem filter_isLabelled_map_candidateOf (q : Floats) (ls : List Label) :
    (ls.map (f.candidateOf q)).filter Candidate.isLabelled =
      (ls.filter fun l => l ≠ noLabel).map (f.candidateOf q) := by
  rw [List.filter_map]
  rfl

variable {f} {x : Floats} {k nq : Nat} {out : Slots}

/-- The slots with the distances that their labels have from the queries. -/
def rescored (f : Flat) (x : Floats) (k : Nat) (out : Slots) : Slots :=
  ⟨Scan.rescore f.metric x f.vectors f.dimension k out.labels out.distances, out.labels⟩

theorem rescore_of_proposable (hshape : Index.checkShape f.dimension x k out = .ok nq)
    (hl : ∀ l ∈ out.labels, l.Proposable f.count) :
    f.rescore x k out = .done (f.rescored x k out) := by
  have hfind : out.labels.toList.find? (fun l => l ≠ noLabel && !l.isStored f.count) = none := by
    rw [List.find?_eq_none]
    intro l hmem hstray
    exact Label.stray_iff.1 hstray (hl l (Array.mem_toList_iff.1 hmem))
  unfold Flat.rescore
  simp only [hshape, hfind]
  rfl

/-- The first label in the buffer that is neither stored nor that of an empty slot is reported. -/
theorem rescore_of_stray (hshape : Index.checkShape f.dimension x k out = .ok nq)
    (hl : ∃ l ∈ out.labels, ¬l.Proposable f.count) :
    ∃ (j : Nat) (hj : j < out.labels.size), ¬out.labels[j].Proposable f.count ∧
      (∀ (i : Nat) (hi : i < j), out.labels[i].Proposable f.count) ∧
      f.rescore x k out = .fail (.labelOutOfRange out.labels[j] f.count) out := by
  cases hfind : out.labels.toList.find? fun l => l ≠ noLabel && !l.isStored f.count with
  | none =>
    obtain ⟨l, hmem, hstray⟩ := hl
    exact absurd (Label.stray_iff.2 hstray)
      (List.find?_eq_none.1 hfind l (Array.mem_toList_iff.2 hmem))
  | some l =>
    obtain ⟨hstray, j, hj, rfl, hbefore⟩ := List.find?_eq_some_iff_getElem.1 hfind
    simp only [Array.getElem_toList] at *
    refine ⟨j, by simpa using hj, Label.stray_iff.1 hstray, fun i hi => ?_, ?_⟩
    · have hi' := hbefore i hi
      by_contra hno
      rw [Label.stray_iff.2 hno] at hi'
      cases hi'
    · unfold Flat.rescore
      simp only [hshape, hfind]

theorem rescore_ok (h : (f.rescore x k out).answer = .ok ()) :
    (∃ nq, Index.checkShape f.dimension x k out = .ok nq) ∧
      ∀ l ∈ out.labels, l.Proposable f.count := by
  cases hshape : Index.checkShape f.dimension x k out with
  | error e =>
    unfold Flat.rescore at h
    rw [hshape] at h
    cases h
  | ok nq =>
    refine ⟨⟨nq, rfl⟩, ?_⟩
    by_contra hno
    obtain ⟨j, hj, -, -, hfail⟩ := rescore_of_stray hshape (by simpa using hno)
    rw [hfail] at h
    cases h

@[simp] theorem size_distances_rescored (f : Flat) (x : Floats) (k : Nat) (out : Slots) :
    (f.rescored x k out).distances.size = out.distances.size := by
  unfold rescored Scan.rescore
  dsimp only
  split
  · rfl
  · rw [Array.size_mapIdx]

@[simp] theorem labels_rescored (f : Flat) (x : Floats) (k : Nat) (out : Slots) :
    (f.rescored x k out).labels = out.labels := rfl

theorem div_slot {i j : Nat} (hj : j < k) : (i * k + j) / k = i := by
  rw [Nat.mul_comm, Nat.mul_add_div (Nat.zero_lt_of_lt hj), Nat.div_eq_of_lt hj, Nat.add_zero]

theorem distances_rescored {slot : Nat} (hslot : slot < (f.rescored x k out).distances.size)
    (hl : slot < out.labels.size) (hk : k ≠ 0) (hq : slot / k < x.size / f.dimension) :
    (f.rescored x k out).distances[slot] =
      (f.candidateOf (rowOf f.dimension x (slot / k)) out.labels[slot]).distance := by
  simp only [rescored, Scan.rescore, if_neg hk, Array.getElem_mapIdx, Array.getElem?_eq_getElem hl,
    if_neg (Nat.not_le.2 hq)]
  rfl

/-- The candidates of a query after the rescoring: its labels, each with its own distance. -/
theorem rescored_row (h : out.HasSize (nq * k)) (hnq : nq = x.size / f.dimension) {i : Nat}
    (hi : i < nq) : ((f.rescored x k out).row k i).candidates =
      (out.row k i).labels.toList.map (f.candidateOf (rowOf f.dimension x i)) := by
  have hd := h.distances
  have hl := h.labels
  have hwidth : (i + 1) * k = i * k + k := Nat.succ_mul i k
  have hend : i * k + k ≤ nq * k := hwidth ▸ Nat.mul_le_mul_right k hi
  refine List.ext_getElem ?_ fun j hj hj' => ?_
  · simp [Slots.row, Slots.candidates]
    omega
  · simp only [Slots.row, Slots.candidates, List.length_zipWith, List.length_map,
      Array.length_toList, Array.size_extract] at hj hj'
    have hjk : j < k := by omega
    have hslot : i * k + j < nq * k := by omega
    have hdiv : (i * k + j) / k = i := div_slot hjk
    have hsize : i * k + j < (f.rescored x k out).distances.size := by
      rw [size_distances_rescored]
      omega
    have hdist := distances_rescored hsize (by omega) (by omega) (by omega)
    simp only [Slots.row, Slots.candidates, List.getElem_zipWith, List.getElem_map,
      Array.getElem_toList, Array.getElem_extract, labels_rescored, hdist, hdiv]
    rfl

end Flat

end Neighbors
