import Neighbors.Proofs.Compaction
import Neighbors.Proofs.Failure

/-!
# A flat index is a list of rows

`Flat.Call.onRows` says what each call that can change a flat index does to a list of rows. A run of
calls leaves the rows of the list end to end, and a label is looked up as its position in the list
(`run_rows`).
-/

namespace Neighbors

theorem Scan.flatMap_rows {d n : Nat} {x : Floats} (hd : 0 < d) (hx : x.size = n * d) :
    (rows d x).flatMap Array.toList = x.toList := by
  rw [rows, hx, Nat.mul_div_cancel n hd]
  exact Slots.flatMap_extract hx

namespace Storage

variable (s : Storage)

theorem flatMap_toList : s.toList.flatMap Array.toList = s.data.toList :=
  Scan.flatMap_rows s.dimension_pos s.size_data

theorem size_of_mem_toList {v : Floats} (h : v ∈ s.toList) : v.size = s.dimension := by
  obtain ⟨i, hi, rfl⟩ := List.mem_map.1 h
  refine size_rowOf ?_
  rw [s.size_data]
  exact Nat.mul_le_mul_right _ (List.mem_range.1 hi)

/-- Of a buffer with a 64-bit length, rows are found just if all of them are stored: where an offset
overflows, so does the number of rows. -/
theorem rows?_eq (hfits : s.data.size ≤ Count.limit) (first n : Nat) : s.rows? first n =
    if first + n ≤ s.count then
      some (s.data.extract (first * s.dimension) ((first + n) * s.dimension))
    else none := by
  have hpos := s.dimension_pos
  have hstart : first * s.dimension ≤ (first + n) * s.dimension :=
    Nat.mul_le_mul_right _ (Nat.le_add_right first n)
  have hsum : first + n ≤ (first + n) * s.dimension := Nat.le_mul_of_pos_right _ hpos
  by_cases hin : first + n ≤ s.count
  · have hstop : (first + n) * s.dimension ≤ s.data.size := by
      rw [s.size_data]
      exact Nat.mul_le_mul_right _ hin
    have hmul : Count.mul? first s.dimension = some (first * s.dimension) := if_pos (by omega)
    have hadd : Count.add? first n = some (first + n) := if_pos (by omega)
    have hmul' : Count.mul? (first + n) s.dimension = some ((first + n) * s.dimension) :=
      if_pos (by omega)
    rw [if_pos hin, rows?]
    simp only [hmul, hadd, hmul', bind, Option.bind]
    exact if_pos ⟨hstart, hstop⟩
  · have hstop : ¬(first + n) * s.dimension ≤ s.data.size := by
      rw [s.size_data]
      exact fun h => hin (Nat.le_of_mul_le_mul_right h hpos)
    rw [if_neg hin, rows?]
    -- What does not overflow is past the end.
    unfold Count.mul? Count.add?
    by_cases hmul : first * s.dimension ≤ Count.limit
    · by_cases hadd : first + n ≤ Count.limit
      · by_cases hmul' : (first + n) * s.dimension ≤ Count.limit
        · simp only [if_pos hmul, if_pos hadd, if_pos hmul', bind, Option.bind]
          exact if_neg fun h => hstop h.2
        · simp only [if_pos hmul, if_pos hadd, if_neg hmul', bind, Option.bind]
      · simp only [if_pos hmul, if_neg hadd, bind, Option.bind]
    · simp only [if_neg hmul, bind, Option.bind]

theorem row?_eq (hfits : s.data.size ≤ Count.limit) (i : Nat) : s.row? i = s.toList[i]? := by
  rw [row?, rows?_eq s hfits, toList_eq_map, List.getElem?_map]
  by_cases hi : i + 1 ≤ s.count
  · rw [if_pos hi, List.getElem?_range hi, Option.map_some, rowOf]
  · rw [if_neg hi, List.getElem?_eq_none (by simp; omega), Option.map_none]

end Storage

namespace Flat

inductive Call where
  | train (x : Floats)
  | add (x : Floats)
  | remove (selector : Selector)
  | reset

/-- What the call leaves of the index, also where it fails. -/
def Call.run (f : Flat) : Call → Flat
  | train x => (Index.train f x).state
  | add x => (Index.add f x).state
  | remove selector => (Index.removeIds f selector).state
  | reset => Index.reset f

/-- What the call does to a list of rows of `d` components. A batch with a part of a row is refused,
and a removal takes away the rows whose positions are selected. -/
def Call.onRows (d : Nat) (rows : List Floats) : Call → List Floats
  | train _ => rows
  | add x => if x.size % d = 0 then rows ++ Scan.rows d x else rows
  | remove selector =>
    (rows.zipIdx.filter fun row => !selector.isMember row.2).map Prod.fst
  | reset => []

def rowAt? (rows : List Floats) (label : Label) : Option Floats :=
  if label < 0 then none else rows[label.toNat]?

/-- The index has these rows of `d` components, in label order. -/
structure Holds (f : Flat) (d : Nat) (rows : List Floats) : Prop where
  dimension : f.dimension = d
  rows : f.storage.toList = rows

namespace Holds

variable {f : Flat} {d : Nat} {rows : List Floats}

theorem empty {metric : Metric} (h : Flat.empty d metric = .ok f) : Holds f d [] := by
  obtain ⟨storage, hempty, rfl⟩ := map_eq_ok_iff.1 h
  unfold Storage.empty at hempty
  split at hempty
  · cases hempty
    exact ⟨rfl, by simp [Storage.toList, Scan.rows]⟩
  · cases hempty

theorem train (h : Holds f d rows) (x : Floats) : Holds (Index.train f x).state d rows := by
  show Holds (Outcome.replace f ((rowCount f.dimension x).map fun _ => f)).state d rows
  cases rowCount f.dimension x <;> exact h

theorem add (h : Holds f d rows) (x : Floats) :
    Holds (Index.add f x).state d ((Call.add x).onRows d rows) := by
  obtain ⟨rfl, rfl⟩ := h
  show Holds (Outcome.replace f ((f.storage.append x).map fun storage => { f with storage })).state
    _ (if x.size % f.storage.dimension = 0 then _ else _)
  by_cases hwhole : x.size % f.storage.dimension = 0
  · have happend : f.storage.append x = .ok _ := dif_pos hwhole
    rw [happend, if_pos hwhole]
    exact ⟨rfl, Storage.toList_append happend⟩
  · have happend : f.storage.append x = .error _ := dif_neg hwhole
    rw [happend, if_neg hwhole]
    exact ⟨rfl, rfl⟩

theorem remove (h : Holds f d rows) (selector : Selector) :
    Holds (Index.removeIds f selector).state d ((Call.remove selector).onRows d rows) := by
  obtain ⟨rfl, rfl⟩ := h
  refine ⟨rfl, (f.storage.toList_compact fun i => selector.isMember i).trans ?_⟩
  have hzip : f.storage.toList.zipIdx = (List.range f.storage.count).map fun i =>
      (rowOf f.storage.dimension f.storage.data i, i) := by
    refine List.ext_getElem (by simp) fun i hi hi' => ?_
    simp [Storage.toList_eq_map]
  rw [Call.onRows, hzip, List.filter_map, List.map_map]
  rfl

theorem reset (h : Holds f d rows) : Holds (Index.reset f) d [] :=
  ⟨h.dimension, by simp [Index.reset, Storage.clear, Storage.toList, Scan.rows]⟩

/-- Each call does to the rows of the index what it does to the list. -/
theorem step (h : Holds f d rows) (c : Call) : Holds (c.run f) d (c.onRows d rows) := by
  cases c with
  | train x => exact h.train x
  | add x => exact h.add x
  | remove selector => exact h.remove selector
  | reset => exact h.reset

theorem run (h : Holds f d rows) (calls : List Call) :
    Holds (calls.foldl Call.run f) d (calls.foldl (Call.onRows d) rows) := by
  induction calls generalizing f rows with
  | nil => exact h
  | cons c calls ih => exact ih (h.step c)

/-! ## Looking up a label -/

theorem count (h : Holds f d rows) : f.count = rows.length := by
  rw [← h.rows, Storage.length_toList]
  rfl

theorem isStored_iff (h : Holds f d rows) (label : Label) :
    label.isStored f.count = (rowAt? rows label).isSome := by
  unfold Label.isStored rowAt?
  rw [h.count]
  by_cases hneg : label < 0
  · simp [hneg, Int.not_le.2 hneg]
  · rw [Bool.eq_iff_iff]
    simp [hneg, Int.not_lt.1 hneg]

theorem vector?_eq (h : Holds f d rows) (hfits : f.vectors.size ≤ Count.limit) (label : Label) :
    f.vector? label = rowAt? rows label := by
  unfold vector? rowAt?
  rw [f.storage.row?_eq hfits, h.rows]

theorem reconstruct_eq (h : Holds f d rows) (hfits : f.vectors.size ≤ Count.limit) (label : Label)
    {out : Floats} (hout : out.size = d) :
    Index.reconstruct f label out = match rowAt? rows label with
      | some v => .done v
      | none => .fail (.labelOutOfRange label f.count) out := by
  show Outcome.replace out (f.reconstruct label out) = _
  unfold Flat.reconstruct
  rw [h.isStored_iff, h.dimension, hout]
  cases hrow : rowAt? rows label with
  | none => rfl
  | some v =>
    have hstored : f.storage.row? label.toNat = some v := by
      rw [f.storage.row?_eq hfits, h.rows]
      unfold rowAt? at hrow
      split at hrow
      · cases hrow
      · exact hrow
    simp [hstored]
    rfl

end Holds

/-- Whatever calls an index has had since it was empty, its buffer has the rows that the calls leave
in a list, end to end, so that its length is that of the list times `d`. If that length has 64 bits,
a label is looked up and reconstructed as a position in the list, whatever number it is; one that is
no position gives nothing, or fails with the label and leaves the buffer alone. -/
theorem run_rows {d : Nat} {metric : Metric} {f : Flat} (h : Flat.empty d metric = .ok f)
    (calls : List Call) :
    let g := calls.foldl Call.run f
    let rows := calls.foldl (Call.onRows d) []
    g.vectors.toList = rows.flatMap Array.toList ∧ (∀ v ∈ rows, v.size = d) ∧
    g.count = rows.length ∧ g.vectors.size = g.count * d ∧
    (g.vectors.size ≤ Count.limit → ∀ label : Label,
      g.vector? label = rowAt? rows label ∧
      ∀ out : Floats, out.size = d →
        Index.reconstruct g label out = match rowAt? rows label with
          | some v => .done v
          | none => .fail (.labelOutOfRange label g.count) out) := by
  intro g rows
  have hholds : Holds g d rows := (Holds.empty h).run calls
  refine ⟨?_, fun v hv => ?_, hholds.count, ?_, fun hfits label =>
    ⟨hholds.vector?_eq hfits label, fun out hout => hholds.reconstruct_eq hfits label hout⟩⟩
  · rw [← hholds.rows, Storage.flatMap_toList]
    rfl
  · rw [← hholds.rows] at hv
    exact (g.storage.size_of_mem_toList hv).trans hholds.dimension
  · rw [← hholds.dimension]
    exact g.storage.size_data

/-- A refused batch, a removal from the middle and a reset, and labels at both ends of 64 bits. -/
theorem run_rows_ends :
    let f : Flat := ⟨⟨2, #[], by decide, by decide⟩, .l2⟩
    let batch : Floats := #[.one, .zero, .zero, .one, .one, .one]
    let g := [.add #[.one, .one], .reset, .add batch, .add #[.one], .train #[.zero],
      .remove (.range 1 2)].foldl Call.run f
    Flat.empty 2 .l2 = .ok f ∧ g.vectors = #[.one, .zero, .one, .one] ∧
      g.vectors.size = g.count * 2 ∧ g.vector? 1 = some #[.one, .one] ∧
      g.vector? Label.greatest = none ∧
      Index.reconstruct g Label.least #[.one, .zero] =
        .fail (.labelOutOfRange Label.least 2) #[.one, .zero] := by
  intro f batch g
  have hempty : Flat.empty 2 .l2 = .ok f := rfl
  obtain ⟨-, -, -, hsize, hlabels⟩ := run_rows hempty [.add #[.one, .one], .reset, .add batch,
    .add #[.one], .train #[.zero], .remove (.range 1 2)]
  have hfits : g.vectors.size ≤ Count.limit := by decide +kernel
  refine ⟨hempty, by decide +kernel, hsize, (hlabels hfits 1).1.trans (by decide +kernel),
    (hlabels hfits Label.greatest).1.trans (by decide +kernel), ?_⟩
  have hcount : g.count = 2 := by decide +kernel
  have hfail := (hlabels hfits Label.least).2 #[.one, .zero] rfl
  rw [hfail]
  exact congrArg (fun c => Outcome.fail (.labelOutOfRange Label.least c) _) hcount

end Flat

end Neighbors
