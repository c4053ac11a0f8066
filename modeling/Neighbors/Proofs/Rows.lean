import Neighbors.Index.Basic
import Mathlib.Data.List.Basic

/-!
# Rows of slots

What the checks of queries and buffers accept, and which slots belong to which query: slots made of
rows of one length give each row back (`Slots.row_fillRows`).
-/

namespace Neighbors

/-- The label of a stored vector is not that of an empty slot. -/
theorem Label.natCast_ne_noLabel (j : Nat) : (j : Label) ≠ noLabel := by
  show (j : Int) ≠ -1
  omega

theorem rowCount_eq_ok_iff {d n : Nat} {x : Floats} :
    rowCount d x = .ok n ↔ 0 < d ∧ x.size % d = 0 ∧ n = x.size / d := by
  unfold rowCount
  split
  · next hd => simp [hd]
  · next hd =>
    split
    · next hx => simp [hx]
    · next hx => simp [Nat.pos_of_ne_zero hd, not_not.1 hx, eq_comm]

theorem rowCount_one (x : Floats) : rowCount 1 x = .ok x.size :=
  rowCount_eq_ok_iff.2 ⟨Nat.one_pos, Nat.mod_one _, (Nat.div_one _).symm⟩

theorem rowOf_one {x : Floats} {i : Nat} (hi : i < x.size) : rowOf 1 x i = #[x[i]] := by
  have hsize : min (i + 1) x.size - i = 1 := by omega
  refine Array.ext (by simpa [rowOf] using hsize) fun j hj hj' => ?_
  have hj0 : j = 0 := Nat.lt_one_iff.1 hj'
  subst hj0
  simp [rowOf]

structure Slots.HasSize (s : Slots) (n : Nat) : Prop where
  distances : s.distances.size = n
  labels : s.labels.size = n

theorem Slots.hasSize_iff {s : Slots} {n : Nat} :
    s.HasSize n ↔ s.distances.size = n ∧ s.labels.size = n :=
  ⟨fun h => ⟨h.distances, h.labels⟩, fun h => ⟨h.1, h.2⟩⟩

instance (s : Slots) (n : Nat) : Decidable (s.HasSize n) := decidable_of_iff' _ Slots.hasSize_iff

namespace Index

variable {d k n nq : Nat} {x : Floats} {out : Slots}

/-- The buffers are compared with the product that is left after it has wrapped around. -/
theorem checkShape_eq_ok_iff :
    checkShape d x k out = .ok n ↔ rowCount d x = .ok n ∧ out.HasSize (Count.mul n k) := by
  rw [Slots.hasSize_iff]
  unfold checkShape
  cases rowCount d x with
  | error e => simp [bind, Except.bind]
  | ok m =>
    simp only [bind, Except.bind]
    split
    · next hx =>
      constructor
      · intro h; cases h
      · rintro ⟨hm, hx', -⟩
        cases hm
        exact absurd hx' hx
    · next hx =>
      split
      · next hl =>
        constructor
        · intro h; cases h
        · rintro ⟨hm, -, hl'⟩
          cases hm
          exact absurd hl' hl
      · next hl =>
        constructor
        · intro h
          cases h
          exact ⟨rfl, not_not.1 hx, not_not.1 hl⟩
        · rintro ⟨hm, -, -⟩
          exact hm

theorem rowCount_of_checkShape (h : checkShape d x k out = .ok n) : rowCount d x = .ok n :=
  (checkShape_eq_ok_iff.1 h).1

theorem eq_div_of_checkShape (h : checkShape d x k out = .ok n) : n = x.size / d :=
  (rowCount_eq_ok_iff.1 (rowCount_of_checkShape h)).2.2

theorem size_le_of_checkShape (h : checkShape d x k out = .ok n) :
    out.distances.size ≤ x.size / d * k := by
  rw [(checkShape_eq_ok_iff.1 h).2.distances, ← eq_div_of_checkShape h]
  exact Count.mul_le n k

/-- `nq` queries and `k` slots for each of them. That is what a check of the shape is for, and what
it comes to as long as the number of slots has 64 bits. -/
structure WellShaped (d : Nat) (x : Floats) (k : Nat) (out : Slots) (nq : Nat) : Prop where
  rows : rowCount d x = .ok nq
  size : out.HasSize (nq * k)
  fits : nq * k ≤ Count.limit

theorem wellShaped_iff :
    WellShaped d x k out nq ↔ checkShape d x k out = .ok nq ∧ nq * k ≤ Count.limit := by
  rw [checkShape_eq_ok_iff]
  constructor
  · rintro ⟨hrows, hsize, hfits⟩
    exact ⟨⟨hrows, by rwa [Count.mul_eq hfits]⟩, hfits⟩
  · rintro ⟨⟨hrows, hsize⟩, hfits⟩
    exact ⟨hrows, by rwa [Count.mul_eq hfits] at hsize, hfits⟩

instance : Decidable (WellShaped d x k out nq) := decidable_of_iff' _ wellShaped_iff

namespace WellShaped

theorem checkShape (h : WellShaped d x k out nq) : checkShape d x k out = .ok nq :=
  (wellShaped_iff.1 h).1

theorem of_checkShape (h : Index.checkShape d x k out = .ok nq)
    (hfits : x.size / d * k ≤ Count.limit) : WellShaped d x k out nq :=
  wellShaped_iff.2 ⟨h, eq_div_of_checkShape h ▸ hfits⟩

theorem eq_div (h : WellShaped d x k out nq) : nq = x.size / d :=
  eq_div_of_checkShape h.checkShape

theorem other {out' : Slots} {k' : Nat} (h : WellShaped d x k out nq)
    (hsize : out'.HasSize (nq * k')) (hfits : nq * k' ≤ Count.limit) :
    WellShaped d x k' out' nq := ⟨h.rows, hsize, hfits⟩

theorem room {i : Nat} (h : WellShaped d x k out nq) (hi : i < nq) :
    (i + 1) * k ≤ out.distances.size := by
  rw [h.size.distances]
  exact Nat.mul_le_mul_right k hi

end WellShaped

end Index

/-- The check of a shape fails with no error of an index. -/
theorem Index.checkShape_error {d k : Nat} {x : Floats} {out : Slots} {e : Error}
    (h : checkShape d x k out = .error e) :
    e = .invalidDimension ∨ ∃ expected actual, e = .dimensionMismatch expected actual := by
  unfold checkShape at h
  cases hrows : rowCount d x with
  | error e' =>
    rw [hrows] at h
    cases h
    unfold rowCount at hrows
    split at hrows
    · cases hrows
      exact .inl rfl
    · split at hrows
      · cases hrows
        exact .inr ⟨_, _, rfl⟩
      · cases hrows
  | ok n =>
    rw [hrows] at h
    simp only [bind, Except.bind] at h
    split at h
    · cases h
      exact .inr ⟨_, _, rfl⟩
    · split at h
      · cases h
        exact .inr ⟨_, _, rfl⟩
      · cases h

namespace Slots

@[simp] theorem size_distances_ofCandidates (cs : List Candidate) :
    (ofCandidates cs).distances.size = cs.length := by simp [ofCandidates]

@[simp] theorem size_labels_ofCandidates (cs : List Candidate) :
    (ofCandidates cs).labels.size = cs.length := by simp [ofCandidates]

@[simp] theorem candidates_ofCandidates (cs : List Candidate) :
    (ofCandidates cs).candidates = cs := by
  simp [ofCandidates, candidates, List.zipWith_map, List.zipWith_self]

theorem row_ofCandidates (cs : List Candidate) (k i : Nat) :
    (ofCandidates cs).row k i = ofCandidates ((cs.drop (i * k)).take k) := by
  have hk : (i + 1) * k - i * k = k := by rw [Nat.add_mul, Nat.one_mul, Nat.add_sub_cancel_left]
  simp [ofCandidates, row, List.extract_eq_take_drop, hk, List.map_take, List.map_drop]

theorem mem_labels_of_row {s : Slots} {k i : Nat} {l : Label}
    (h : l ∈ (s.row k i).labels.toList) : l ∈ s.labels := by
  rw [row, Array.toList_extract, List.extract_eq_take_drop] at h
  exact Array.mem_toList_iff.1 (List.mem_of_mem_drop (List.mem_of_mem_take h))

theorem take_drop_flatMap {α β : Type} {f : α → List β} {k : Nat} {l : List α}
    (hf : ∀ a ∈ l, (f a).length = k) {i : Nat} (hi : i < l.length) :
    ((l.flatMap f).drop (i * k)).take k = f l[i] := by
  induction l generalizing i with
  | nil => exact absurd hi (Nat.not_lt_zero i)
  | cons a l ih =>
    have ha : (f a).length = k := hf a List.mem_cons_self
    rw [List.flatMap_cons]
    cases i with
    | zero =>
      rw [Nat.zero_mul, List.drop_zero, List.getElem_cons_zero]
      rw [List.take_append_of_le_length (Nat.le_of_eq ha.symm),
        List.take_of_length_le (Nat.le_of_eq ha)]
    | succ i =>
      rw [Nat.add_mul, Nat.one_mul, Nat.add_comm, ← List.drop_drop, List.drop_append_of_le_length
        (Nat.le_of_eq ha.symm), List.drop_of_length_le (Nat.le_of_eq ha), List.nil_append]
      exact ih (fun b hb => hf b (List.mem_cons_of_mem a hb)) (by simpa using hi)

section

variable {α : Type} {row row' : Nat → α → List Candidate} {size k : Nat} {l : List α}

theorem fillRows_congr (h : ∀ a ∈ l, ∀ room, row room a = row' room a) :
    fillRows size k l row = fillRows size k l row' := by
  have hrows : (l.mapIdx fun i a => row (min k (size - i * k)) a) =
      l.mapIdx fun i a => row' (min k (size - i * k)) a :=
    List.ext_getElem (by simp) fun i hi _ => by
      rw [List.getElem_mapIdx, List.getElem_mapIdx]
      exact h _ (List.getElem_mem _) _
  rw [fillRows, fillRows, hrows]

theorem fillRows_map {β : Type} (row : Nat → β → List Candidate) (f : α → β) (size k : Nat)
    (l : List α) :
    fillRows size k (l.map f) row = fillRows size k l fun room a => row room (f a) := by
  have hrows : ((l.map f).mapIdx fun i b => row (min k (size - i * k)) b) =
      l.mapIdx fun i a => row (min k (size - i * k)) (f a) :=
    List.ext_getElem (by simp) fun i hi _ => by simp
  rw [fillRows, fillRows, hrows]

theorem fillRows_singleton (row : Nat → α → List Candidate) (k : Nat) (a : α) :
    fillRows k k [a] row = ofCandidates (row k a) := by simp [fillRows]

/-- After the first row there are fewer slots for the others. -/
theorem rows_cons (row : Nat → α → List Candidate) (size k : Nat) (a : α) (l : List α) :
    ((a :: l).mapIdx fun i a => row (min k (size - i * k)) a) =
      row (min k size) a :: l.mapIdx fun i a => row (min k (size - k - i * k)) a := by
  have hrest : ∀ i, size - (i + 1) * k = size - k - i * k := by
    intro i
    rw [Nat.succ_mul]
    omega
  simp only [List.mapIdx_cons, Nat.zero_mul, Nat.sub_zero, hrest]

theorem length_rows_tail {a : α} (hlen : ∀ (j : Nat) (hj : j < (a :: l).length),
      (row (min k (size - j * k)) (a :: l)[j]).length = min k (size - j * k))
    (j : Nat) (hj : j < l.length) :
    (row (min k (size - k - j * k)) l[j]).length = min k (size - k - j * k) := by
  have hrest : size - (j + 1) * k = size - k - j * k := by
    rw [Nat.succ_mul]
    omega
  exact hrest ▸ hlen (j + 1) (Nat.succ_lt_succ hj)

theorem length_rows (hlen : ∀ (j : Nat) (hj : j < l.length),
      (row (min k (size - j * k)) l[j]).length = min k (size - j * k))
    (hsize : size ≤ l.length * k) :
    ((l.mapIdx fun i a => row (min k (size - i * k)) a).flatten).length = size := by
  induction l generalizing size with
  | nil =>
    rw [List.length_nil, Nat.zero_mul] at hsize
    exact (Nat.eq_zero_of_le_zero hsize).symm
  | cons a l ih =>
    have hfirst : (row (min k size) a).length = min k size := by
      simpa using hlen 0 (Nat.zero_lt_succ _)
    rw [List.length_cons, Nat.succ_mul] at hsize
    rw [rows_cons, List.flatten_cons, List.length_append, hfirst,
      ih (length_rows_tail hlen) (by omega)]
    omega

theorem hasSize_fillRows (hlen : ∀ (j : Nat) (hj : j < l.length),
      (row (min k (size - j * k)) l[j]).length = min k (size - j * k))
    (hsize : size ≤ l.length * k) : (fillRows size k l row).HasSize size :=
  ⟨by rw [fillRows, size_distances_ofCandidates, length_rows hlen hsize],
    by rw [fillRows, size_labels_ofCandidates, length_rows hlen hsize]⟩

theorem take_drop_rows (hlen : ∀ (j : Nat) (hj : j < l.length),
      (row (min k (size - j * k)) l[j]).length = min k (size - j * k)) {i : Nat}
    (hi : i < l.length) :
    (((l.mapIdx fun i a => row (min k (size - i * k)) a).flatten).drop (i * k)).take k =
      row (min k (size - i * k)) l[i] := by
  induction l generalizing size i with
  | nil => exact absurd hi (Nat.not_lt_zero i)
  | cons a l ih =>
    have hfirst : (row (min k size) a).length = min k size := by
      simpa using hlen 0 (Nat.zero_lt_succ _)
    have hown := hlen i hi
    rw [rows_cons, List.flatten_cons]
    rcases Nat.le_total k size with hwhole | hcut
    · rw [Nat.min_eq_left hwhole] at hfirst ⊢
      cases i with
      | zero =>
        rw [Nat.zero_mul, List.drop_zero, Nat.sub_zero, Nat.min_eq_left hwhole,
          List.take_append_of_le_length (Nat.le_of_eq hfirst.symm),
          List.take_of_length_le (Nat.le_of_eq hfirst), List.getElem_cons_zero]
      | succ i =>
        have hrest : size - (i + 1) * k = size - k - i * k := by
          rw [Nat.succ_mul]
          omega
        rw [hrest, Nat.succ_mul, Nat.add_comm, ← List.drop_drop, List.drop_append_of_le_length
          (Nat.le_of_eq hfirst.symm), List.drop_of_length_le (Nat.le_of_eq hfirst), List.nil_append]
        exact ih (length_rows_tail hlen) (Nat.lt_of_succ_lt_succ hi)
    -- The first row takes the slots that there are, and the others have none.
    · have hnone := length_rows (length_rows_tail hlen) (by omega)
      rw [Nat.sub_eq_zero_of_le hcut] at hnone
      rw [Nat.min_eq_right hcut] at hfirst ⊢
      rw [Nat.sub_eq_zero_of_le hcut, List.eq_nil_of_length_eq_zero hnone, List.append_nil]
      cases i with
      | zero =>
        rw [Nat.zero_mul, List.drop_zero, Nat.sub_zero, Nat.min_eq_right hcut,
          List.take_of_length_le (Nat.le_trans (Nat.le_of_eq hfirst) hcut),
          List.getElem_cons_zero]
      | succ i =>
        have hend : size ≤ (i + 1) * k :=
          Nat.le_trans hcut (Nat.le_mul_of_pos_left k (Nat.succ_pos i))
        rw [Nat.sub_eq_zero_of_le hend, Nat.min_zero] at hown ⊢
        rw [List.drop_of_length_le (Nat.le_trans (Nat.le_of_eq hfirst) hend), List.take_nil,
          List.eq_nil_of_length_eq_zero hown]

/-- Where each row takes the slots that it is told of, the row of an element is as long as there are
slots left for it. -/
theorem row_fillRows_cut (hlen : ∀ (j : Nat) (hj : j < l.length),
      (row (min k (size - j * k)) l[j]).length = min k (size - j * k)) {i : Nat}
    (hi : i < l.length) :
    (fillRows size k l row).row k i = ofCandidates (row (min k (size - i * k)) l[i]) := by
  rw [fillRows, row_ofCandidates, take_drop_rows hlen hi]

theorem row_fillRows (hlen : ∀ (j : Nat) (hj : j < l.length),
      (row (min k (size - j * k)) l[j]).length = min k (size - j * k)) {i : Nat}
    (hi : i < l.length) (hroom : (i + 1) * k ≤ size) :
    (fillRows size k l row).row k i = ofCandidates (row k l[i]) := by
  have hwhole : min k (size - i * k) = k := by
    rw [Nat.succ_mul] at hroom
    omega
  rw [row_fillRows_cut hlen hi, hwhole]

theorem exists_of_mem_fillRows {label : Label} (h : label ∈ (fillRows size k l row).labels) :
    ∃ room, ∃ a ∈ l, ∃ c ∈ row room a, c.label = label := by
  simp only [fillRows, ofCandidates, List.mem_toArray, List.mem_map, List.mem_flatten,
    List.mem_mapIdx] at h
  obtain ⟨c, ⟨cs, ⟨i, hi, rfl⟩, hc⟩, rfl⟩ := h
  exact ⟨_, l[i], List.getElem_mem hi, c, hc, rfl⟩

end

theorem length_flatMap {α β : Type} {f : α → List β} {k : Nat} {l : List α}
    (hf : ∀ a ∈ l, (f a).length = k) : (l.flatMap f).length = l.length * k := by
  rw [List.length_flatMap, List.map_congr_left hf]
  simp

theorem array_eq_of_rows {α : Type} {a b : Array α} {n k : Nat} (ha : a.size = n * k)
    (hb : b.size = n * k)
    (h : ∀ i < n, a.extract (i * k) ((i + 1) * k) = b.extract (i * k) ((i + 1) * k)) : a = b := by
  have hupto : ∀ m ≤ n, a.extract 0 (m * k) = b.extract 0 (m * k) := by
    intro m hm
    induction m with
    | zero => simp
    | succ m ih =>
      have hle : m * k ≤ (m + 1) * k := Nat.mul_le_mul_right k (Nat.le_succ m)
      have hsplit : ∀ c : Array α,
          c.extract 0 ((m + 1) * k) = c.extract 0 (m * k) ++ c.extract (m * k) ((m + 1) * k) := by
        intro c
        rw [Array.extract_append_extract, Nat.min_eq_left (Nat.zero_le _), Nat.max_eq_right hle]
      rw [hsplit a, hsplit b, ih (Nat.le_of_succ_le hm), h m hm]
  have hall := hupto n (Nat.le_refl n)
  rwa [Array.extract_eq_self_of_le (Nat.le_of_eq ha), Array.extract_eq_self_of_le (Nat.le_of_eq hb)]
    at hall

theorem flatMap_extract {α : Type} {a : Array α} {n k : Nat} (ha : a.size = n * k) :
    ((List.range n).map fun i => a.extract (i * k) ((i + 1) * k)).flatMap Array.toList =
      a.toList := by
  have hupto : ∀ m ≤ n, ((List.range m).map fun i => a.extract (i * k) ((i + 1) * k)).flatMap
      Array.toList = a.toList.take (m * k) := by
    intro m hm
    induction m with
    | zero => simp
    | succ m ih =>
      have hwidth : (m + 1) * k - m * k = k := by rw [Nat.succ_mul, Nat.add_sub_cancel_left]
      have hrow : (a.extract (m * k) ((m + 1) * k)).toList = (a.toList.drop (m * k)).take k := by
        rw [Array.toList_extract, List.extract_eq_take_drop, hwidth]
      rw [List.range_succ, List.map_append, List.flatMap_append, ih (Nat.le_of_succ_le hm),
        List.map_singleton, List.flatMap_singleton, hrow, Nat.succ_mul, List.take_add]
  rw [hupto n (Nat.le_refl n), ← ha]
  exact List.take_length

end Slots

end Neighbors
