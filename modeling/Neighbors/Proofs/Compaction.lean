import Neighbors.Scan
import Neighbors.Proofs.Rows
import Mathlib.Data.List.FinRange

/-!
# Storage as a list of rows

`Storage.toList` has the stored rows in label order, and `Storage.labelled` has the labels as well.
A compaction keeps the rows that are `Storage.spared` in their order (`toList_compact`), and the map
that it answers says which label each of them has now (`labelled_compact`).
-/

namespace Neighbors

theorem rowOf_append_left {d n i : Nat} {a : Floats} (ha : a.size = n * d) (hi : i < n)
    (b : Floats) : rowOf d (a ++ b) i = rowOf d a i := by
  have hstop : (i + 1) * d ≤ a.size := ha ▸ Nat.mul_le_mul_right d hi
  have hstart : i * d ≤ a.size := (Nat.mul_le_mul_right d (Nat.le_succ i)).trans hstop
  rw [rowOf, Array.extract_append, Nat.sub_eq_zero_of_le hstart, Nat.sub_eq_zero_of_le hstop,
    Array.extract_zero, Array.append_empty, rowOf]

theorem rowOf_append_right {d n : Nat} {a : Floats} (ha : a.size = n * d) (b : Floats) (i : Nat) :
    rowOf d (a ++ b) (n + i) = rowOf d b i := by
  have hstart : (n + i) * d - a.size = i * d := by rw [ha, Nat.add_mul, Nat.add_sub_cancel_left]
  have hstop : (n + i + 1) * d - a.size = (i + 1) * d := by
    rw [ha, Nat.add_assoc, Nat.add_mul n, Nat.add_sub_cancel_left]
  have hnone : a.extract ((n + i) * d) ((n + i + 1) * d) = #[] := by
    apply Array.extract_empty_of_size_le_start
    rw [ha]
    exact Nat.mul_le_mul_right d (Nat.le_add_right n i)
  rw [rowOf, Array.extract_append, hstart, hstop, hnone, Array.empty_append, rowOf]

theorem rowOf_zero {d : Nat} {a : Floats} (ha : a.size = d) : rowOf d a 0 = a := by
  rw [rowOf, Nat.zero_mul, Nat.zero_add, Nat.one_mul]
  exact Array.extract_eq_self_of_le (Nat.le_of_eq ha)

namespace Scan

theorem rows_append {d n : Nat} {a : Floats} (hd : 0 < d) (ha : a.size = n * d) (b : Floats) :
    rows d (a ++ b) = rows d a ++ rows d b := by
  have hcount : (a ++ b).size / d = n + b.size / d := by
    rw [Array.size_append, ha, Nat.add_comm, Nat.add_mul_div_right _ _ hd, Nat.add_comm]
  have hn : a.size / d = n := by rw [ha, Nat.mul_div_cancel n hd]
  rw [rows, hcount, List.range_add, List.map_append, List.map_map, rows, hn, rows]
  congr 1
  · exact List.map_congr_left fun i hi => rowOf_append_left ha (List.mem_range.1 hi) b
  · exact List.map_congr_left fun i _ => rowOf_append_right ha b i

theorem rows_of_size_eq {d : Nat} {a : Floats} (hd : 0 < d) (ha : a.size = d) : rows d a = [a] := by
  rw [rows, ha, Nat.div_self hd, List.range_one, List.map_singleton, rowOf_zero ha]

end Scan

/-- An invariant of a fold over positions, by the number of positions seen. -/
theorem foldl_finRange {α : Type} {n : Nat} {P : Nat → α → Prop} (f : α → Fin n → α) {a : α}
    (hstart : P 0 a) (hstep : ∀ (i : Fin n) b, P i b → P (i + 1) (f b i)) :
    P n ((List.finRange n).foldl f a) := by
  induction n with
  | zero => exact hstart
  | succ n ih =>
    rw [List.finRange_succ_last, List.foldl_append, List.foldl_map]
    refine hstep (Fin.last n) _ (ih (fun b i => f b i.castSucc) fun i b hb => ?_)
    exact hstep i.castSucc b hb

namespace Storage

def toList (s : Storage) : List Floats := Scan.rows s.dimension s.data

@[simp] theorem length_toList (s : Storage) : s.toList.length = s.count := by
  simp [toList, Scan.rows, count]

theorem toList_eq_map (s : Storage) :
    s.toList = (List.range s.count).map (rowOf s.dimension s.data) := rfl

def labelled (s : Storage) : List (Label × Floats) := s.toList.mapIdx fun j v => ((j : Int), v)

theorem labelled_eq_map (s : Storage) : s.labelled =
    (List.range s.count).map fun (j : Nat) => ((j : Int), rowOf s.dimension s.data j) := by
  refine List.ext_getElem (by simp [labelled]) fun j hj hj' => ?_
  simp [labelled, toList_eq_map]

theorem size_data (s : Storage) : s.data.size = s.count * s.dimension := s.count_mul.symm

theorem append_eq_ok {s s' : Storage} {x : Floats} (h : s.append x = .ok s') :
    s'.dimension = s.dimension ∧ s'.data = s.data ++ x := by
  unfold append at h
  split at h
  · cases h
    exact ⟨rfl, rfl⟩
  · cases h

theorem toList_append {s s' : Storage} {x : Floats} (h : s.append x = .ok s') :
    s'.toList = s.toList ++ Scan.rows s.dimension x := by
  obtain ⟨hdim, hdata⟩ := append_eq_ok h
  rw [toList, hdim, hdata]
  exact Scan.rows_append s.dimension_pos s.size_data x

/-! ## Compaction -/

variable (s : Storage) (remove : Nat → Bool)

/-- The rows that a removal leaves alone, of the first `n`. -/
def spared (n : Nat) : List Nat := (List.range n).filter fun i => !remove i

/-- The label of row `i` after the compaction. -/
def labelAfter (i : Nat) : Label := if remove i then noLabel else (spared remove i).length

theorem spared_succ (n : Nat) :
    spared remove (n + 1) = spared remove n ++ if remove n then [] else [n] := by
  unfold spared
  rw [List.range_succ, List.filter_append]
  cases h : remove n <;> simp [h]

theorem length_spared_mono {i j : Nat} (h : i ≤ j) :
    (spared remove i).length ≤ (spared remove j).length :=
  ((List.range_sublist.2 h).filter _).length_le

theorem labelAfter_eq_noLabel_iff {i : Nat} : labelAfter remove i = noLabel ↔ remove i = true := by
  have hne := Label.natCast_ne_noLabel (spared remove i).length
  cases hr : remove i <;> simp [labelAfter, hr, hne]

/-- What a compaction has done when it has seen the first `n` rows. -/
structure Compacting.Upto (n : Nat) (c : Compacting s.dimension) : Prop where
  kept : c.kept = (spared remove n).length
  rows : Scan.rows s.dimension c.data = (spared remove n).map (rowOf s.dimension s.data)
  oldToNew : c.oldToNew.toList = (List.range n).map (labelAfter remove)

variable {s remove}

theorem Compacting.Upto.step {i : Fin s.count} {c : Compacting s.dimension}
    (h : Upto s remove i c) : Upto s remove (i + 1) (Compacting.step s remove c i) := by
  have hlabel : labelAfter remove i = if remove i then noLabel else (c.kept : Int) := by
    rw [labelAfter, h.kept]
  have hsize : (rowOf s.dimension s.data i).size = s.dimension := by
    refine size_rowOf ?_
    rw [s.size_data]
    exact Nat.mul_le_mul_right _ i.isLt
  unfold Compacting.step
  cases hi : remove i with
  | true =>
    rw [hi] at hlabel
    refine ⟨?_, ?_, ?_⟩
    · simpa [spared_succ, hi] using h.kept
    · simpa [spared_succ, hi] using h.rows
    · simp [List.range_succ, h.oldToNew, hlabel]
  | false =>
    rw [hi] at hlabel
    refine ⟨?_, ?_, ?_⟩
    · simp [spared_succ, hi, h.kept]
    · simp only [Bool.false_eq_true, ↓reduceIte]
      rw [Scan.rows_append s.dimension_pos c.whole, Scan.rows_of_size_eq s.dimension_pos hsize,
        h.rows, spared_succ, hi]
      simp
    · simp [List.range_succ, h.oldToNew, hlabel]

variable (s remove)

theorem compact_upto : ∃ c : Compacting s.dimension, c.Upto s remove s.count ∧
    (s.compact remove).1.data = c.data ∧ (s.compact remove).2 = ⟨s.count - c.kept, c.oldToNew⟩ :=
  ⟨_, foldl_finRange _ ⟨rfl, by simp [Scan.rows, spared], rfl⟩ fun _ _ h => h.step, rfl, rfl⟩

/-- A compaction keeps the rows that are spared, and nothing else. -/
theorem toList_compact :
    (s.compact remove).1.toList = (spared remove s.count).map (rowOf s.dimension s.data) := by
  obtain ⟨c, hc, hdata, -⟩ := s.compact_upto remove
  rw [toList, hdata]
  exact hc.rows

/-! ## New labels -/

theorem oldToNew_compact :
    (s.compact remove).2.oldToNew.toList = (List.range s.count).map (labelAfter remove) := by
  obtain ⟨c, hc, -, hmap⟩ := s.compact_upto remove
  rw [hmap]
  exact hc.oldToNew

theorem size_oldToNew_compact : (s.compact remove).2.oldToNew.size = s.count := by
  rw [← Array.length_toList, oldToNew_compact, List.length_map, List.length_range]

theorem getElem?_oldToNew_compact {i : Nat} (hi : i < s.count) :
    (s.compact remove).2.oldToNew[i]? = some (labelAfter remove i) := by
  rw [← Array.getElem?_toList, oldToNew_compact, List.getElem?_map, List.getElem?_range hi,
    Option.map_some]

theorem newLabel?_compact (i : Nat) : (s.compact remove).2.newLabel? i =
    if i < s.count ∧ remove i = false then some ((spared remove i).length : Int) else none := by
  unfold Compaction.newLabel?
  rw [if_neg (Int.not_lt.2 (Int.natCast_nonneg i)), Int.toNat_natCast]
  by_cases hi : i < s.count
  · have hne := Label.natCast_ne_noLabel (spared remove i).length
    rw [getElem?_oldToNew_compact s remove hi, labelAfter]
    cases hr : remove i <;> simp [hi, hne]
  · rw [Array.getElem?_eq_none ((size_oldToNew_compact s remove).symm ▸ Nat.le_of_not_lt hi)]
    simp [hi]

/-- The rows left, under their new labels. -/
theorem labelled_compact : (s.compact remove).1.labelled = s.labelled.filterMap fun (l, v) =>
    ((s.compact remove).2.newLabel? l).map fun new => (new, v) := by
  have hupto : ∀ n ≤ s.count,
      ((List.range n).filterMap fun (i : Nat) => ((s.compact remove).2.newLabel? i).map
        fun new => (new, rowOf s.dimension s.data i)) =
        (spared remove n).mapIdx fun j i => ((j : Int), rowOf s.dimension s.data i) := by
    intro n hn
    induction n with
    | zero => rfl
    | succ n ih =>
      rw [List.range_succ, List.filterMap_append, ih (Nat.le_of_succ_le hn), spared_succ,
        List.mapIdx_append]
      cases hr : remove n with
      | true => simp [newLabel?_compact, hr]
      | false => simp [newLabel?_compact, hr, Nat.lt_of_succ_le hn]
  rw [labelled_eq_map s, List.filterMap_map]
  refine Eq.trans ?_ (hupto s.count (Nat.le_refl _)).symm
  rw [labelled, toList_compact]
  exact List.ext_getElem (by simp) fun j hj hj' => by simp

/-- New labels are in the order of the old ones. -/
theorem newLabel?_compact_mono {i j : Nat} {new new' : Label} (hij : i ≤ j)
    (hi : (s.compact remove).2.newLabel? i = some new)
    (hj : (s.compact remove).2.newLabel? j = some new') : new ≤ new' := by
  rw [newLabel?_compact] at hi hj
  obtain ⟨-, hnew⟩ := Option.ite_none_right_eq_some.1 hi
  obtain ⟨-, hnew'⟩ := Option.ite_none_right_eq_some.1 hj
  cases hnew
  cases hnew'
  exact Int.ofNat_le.2 (length_spared_mono remove hij)

end Storage

end Neighbors
