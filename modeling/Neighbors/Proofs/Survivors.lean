import Neighbors.Proofs.InPlace.Storage
import Neighbors.Proofs.RowList

/-!
# What a compaction leaves

A row that is spared gets as its new label the number of spared rows before it: it stands at that
place among the spared rows (`Storage.getElem?_spared`), and so in the buffer
(`Storage.rowOf_compact`). The compaction in place leaves these rows, and its map takes their labels
in order onto all new ones (`Storage.compact?_eq_some_iff_isCompaction`).
-/

namespace Neighbors.Storage

/-! ## Spared rows -/

section Spared

variable {remove : Nat → Bool} {i j n : Nat}

theorem length_spared_lt (hij : i < j) (hi : remove i = false) :
    (spared remove i).length < (spared remove j).length := by
  have hsucc : (spared remove (i + 1)).length = (spared remove i).length + 1 := by
    simp [spared_succ, hi]
  have hmono : (spared remove (i + 1)).length ≤ (spared remove j).length :=
    length_spared_mono remove hij
  omega

theorem length_spared_le (remove : Nat → Bool) (n : Nat) : (spared remove n).length ≤ n :=
  (List.length_filter_le _ _).trans_eq List.length_range

theorem length_spared_eq_iff : (spared remove n).length = n ↔ ∀ i < n, remove i = false := by
  have hfilter := List.length_filter_eq_length_iff (l := List.range n) (p := fun i => !remove i)
  rw [List.length_range] at hfilter
  simpa [spared] using hfilter

/-- A spared row stands behind the spared rows before it. -/
theorem getElem?_spared (hn : i < n) (hi : remove i = false) :
    (spared remove n)[(spared remove i).length]? = some i := by
  induction n with
  | zero => exact absurd hn (Nat.not_lt_zero i)
  | succ n ih =>
    rw [spared_succ]
    rcases Nat.lt_succ_iff_lt_or_eq.1 hn with hlt | rfl
    · rw [List.getElem?_append_left (length_spared_lt hlt hi)]
      exact ih hlt
    · simp [hi]

theorem exists_spared (h : j < (spared remove n).length) :
    ∃ i < n, remove i = false ∧ (spared remove i).length = j := by
  induction n with
  | zero => exact absurd h (Nat.not_lt_zero j)
  | succ n ih =>
    -- Only row `n` itself can be behind all spared rows before it.
    by_cases hlt : j < (spared remove n).length
    · obtain ⟨i, hi, hrest⟩ := ih hlt
      exact ⟨i, Nat.lt_succ_of_lt hi, hrest⟩
    · rw [spared_succ, List.length_append] at h
      cases hn : remove n with
      | true => exact absurd (by simpa [hn] using h) hlt
      | false =>
        have hle : j < (spared remove n).length + 1 := by simpa [hn] using h
        exact ⟨n, Nat.lt_succ_self n, hn, by omega⟩

end Spared

/-! ## The map -/

variable (s : Storage) (remove : Nat → Bool)

@[simp] theorem count_compact : (s.compact remove).1.count = (spared remove s.count).length := by
  rw [← length_toList, toList_compact, List.length_map]

theorem removed_compact :
    (s.compact remove).2.removed + (spared remove s.count).length = s.count := by
  obtain ⟨c, hc, -, hmap⟩ := s.compact_upto remove
  rw [hmap, hc.kept]
  exact Nat.sub_add_cancel (length_spared_le remove s.count)

/-- Only labels of spared rows have a new one. -/
theorem newLabel?_compact_eq_some {l new : Label} :
    (s.compact remove).2.newLabel? l = some new ↔
      ∃ i < s.count, l = (i : Int) ∧ remove i = false ∧ new = ((spared remove i).length : Int) := by
  rcases Int.lt_or_le l 0 with hneg | hpos
  · have hnone : (s.compact remove).2.newLabel? l = none := if_pos hneg
    rw [hnone]
    constructor
    · intro h
      cases h
    · rintro ⟨i, -, rfl, -⟩
      omega
  · obtain ⟨i, rfl⟩ := Int.eq_ofNat_of_zero_le hpos
    rw [newLabel?_compact, Option.ite_none_right_eq_some, Option.some.injEq]
    constructor
    · rintro ⟨⟨hlt, hi⟩, rfl⟩
      exact ⟨i, hlt, rfl, hi, rfl⟩
    · rintro ⟨j, hlt, hj, hi, rfl⟩
      cases Int.ofNat_inj.1 hj
      exact ⟨⟨hlt, hi⟩, rfl⟩

theorem rowOf_compact {i : Nat} (hi : i < s.count) (hr : remove i = false) :
    rowOf s.dimension (s.compact remove).1.data (spared remove i).length =
      rowOf s.dimension s.data i := by
  have hlt : (spared remove i).length < (s.compact remove).1.count := by
    rw [count_compact]
    exact length_spared_lt hi hr
  have hnew : (s.compact remove).1.toList[(spared remove i).length]? =
      some (rowOf s.dimension s.data i) := by
    rw [toList_compact, List.getElem?_map, getElem?_spared hi hr, Option.map_some]
  rw [toList_eq_map, List.getElem?_map, List.getElem?_range hlt, Option.map_some] at hnew
  exact Option.some.inj hnew

/-- The removal of rows from `s` leaves `rest`, and `map` says where they went. -/
structure IsCompaction (rest : Storage) (map : Compaction) : Prop where
  dimension : rest.dimension = s.dimension
  /-- The rows that are left are those that were not to be removed, in their order. -/
  data : rest.data.toList =
    (spared remove s.count).flatMap fun i => (rowOf s.dimension s.data i).toList
  removed : map.removed + (spared remove s.count).length = s.count
  size : map.oldToNew.size = s.count
  /-- A removed row has no label, and no other row has none. -/
  gone : ∀ i < s.count, map.oldToNew[i]? = some noLabel ↔ remove i = true
  /-- The label of any other row is the number of rows that are left of those before it. -/
  moved : ∀ i < s.count, remove i = false →
    map.oldToNew[i]? = some ((spared remove i).length : Int)
  known : ∀ l, (map.newLabel? l).isSome ↔ 0 ≤ l ∧ l < s.count ∧ remove l.toNat = false
  row : ∀ l new, map.newLabel? l = some new →
    rowOf rest.dimension rest.data new.toNat = rowOf s.dimension s.data l.toNat
  increasing : ∀ l l' new new', map.newLabel? l = some new → map.newLabel? l' = some new' →
    l < l' → new < new'
  onto : ∀ new, (∃ l, map.newLabel? l = some new) ↔ 0 ≤ new ∧ new < (s.count - map.removed : Nat)

theorem isCompaction_compact :
    IsCompaction s remove (s.compact remove).1 (s.compact remove).2 where
  dimension := rfl
  data := by
    rw [← flatMap_toList, toList_compact, List.flatMap_map]
  removed := s.removed_compact remove
  size := s.size_oldToNew_compact remove
  gone i hi := by
    rw [s.getElem?_oldToNew_compact remove hi, Option.some.injEq]
    exact labelAfter_eq_noLabel_iff remove
  moved i hi hr := by
    rw [s.getElem?_oldToNew_compact remove hi, labelAfter, hr, if_neg Bool.false_ne_true]
  known l := by
    simp only [Option.isSome_iff_exists, newLabel?_compact_eq_some]
    constructor
    · rintro ⟨-, i, hi, rfl, hr, -⟩
      exact ⟨Int.natCast_nonneg i, Int.ofNat_lt.2 hi, hr⟩
    · rintro ⟨hpos, hlt, hr⟩
      exact ⟨_, l.toNat, (Int.toNat_lt hpos).2 hlt, (Int.toNat_of_nonneg hpos).symm, hr, rfl⟩
  row l new h := by
    obtain ⟨i, hi, rfl, hr, rfl⟩ := (s.newLabel?_compact_eq_some remove).1 h
    exact s.rowOf_compact remove hi hr
  increasing l l' new new' h h' hlt := by
    obtain ⟨i, -, rfl, hr, rfl⟩ := (s.newLabel?_compact_eq_some remove).1 h
    obtain ⟨j, -, rfl, -, rfl⟩ := (s.newLabel?_compact_eq_some remove).1 h'
    exact Int.ofNat_lt.2 (length_spared_lt (Int.ofNat_lt.1 hlt) hr)
  onto new := by
    have hleft := s.removed_compact remove
    simp only [newLabel?_compact_eq_some]
    constructor
    · rintro ⟨-, i, hi, -, hr, rfl⟩
      have hlt := length_spared_lt hi hr
      exact ⟨Int.natCast_nonneg _, Int.ofNat_lt.2 (by omega)⟩
    · rintro ⟨hpos, hlt⟩
      have hlt' : new.toNat < s.count - (s.compact remove).2.removed := (Int.toNat_lt hpos).2 hlt
      have hplace : new.toNat < (spared remove s.count).length := by omega
      obtain ⟨i, hi, hr, hnew⟩ := exists_spared hplace
      refine ⟨i, i, hi, rfl, hr, ?_⟩
      rw [hnew, Int.toNat_of_nonneg hpos]

variable {s remove}

theorem IsCompaction.unique {rest rest' : Storage} {map map' : Compaction}
    (h : IsCompaction s remove rest map) (h' : IsCompaction s remove rest' map') :
    rest' = rest ∧ map' = map := by
  constructor
  · obtain ⟨d, data, _, _⟩ := rest
    obtain ⟨d', data', _, _⟩ := rest'
    have hdim : d' = d := h'.dimension.trans h.dimension.symm
    have hdata : data' = data := Array.toList_inj.1 (h'.data.trans h.data.symm)
    subst hdim hdata
    rfl
  · obtain ⟨removed, oldToNew⟩ := map
    obtain ⟨removed', oldToNew'⟩ := map'
    have hremoved : removed' = removed := by
      have hsum : removed + (spared remove s.count).length = s.count := h.removed
      have hsum' : removed' + (spared remove s.count).length = s.count := h'.removed
      omega
    have hlabels : oldToNew' = oldToNew := by
      refine Array.ext_getElem? fun i => ?_
      by_cases hi : i < s.count
      · cases hr : remove i with
        | true => exact ((h'.gone i hi).2 hr).trans ((h.gone i hi).2 hr).symm
        | false => exact (h'.moved i hi hr).trans (h.moved i hi hr).symm
      · rw [Array.getElem?_eq_none (h'.size ▸ Nat.le_of_not_lt hi),
          Array.getElem?_eq_none (h.size ▸ Nat.le_of_not_lt hi)]
    rw [hremoved, hlabels]

variable (s remove)

/-- Inside the buffer, where rows are moved over others that were read before, a compaction comes to
its end, and it leaves the rows that were not to be removed, bit for bit and in their order, with a
map that takes their labels in order onto the labels from 0 on. -/
theorem compact?_eq_some_iff_isCompaction : s.compact? remove = some (s.compact remove) ∧
    ∀ rest map, s.compact? remove = some (rest, map) ↔ IsCompaction s remove rest map := by
  refine ⟨s.compact?_eq remove, fun rest map => ?_⟩
  have hmade := s.isCompaction_compact remove
  rw [compact?_eq, Option.some.injEq]
  constructor
  · intro h
    rw [h] at hmade
    exact hmade
  · intro h
    obtain ⟨hrest, hmap⟩ := h.unique hmade
    exact Prod.ext hrest hmap

/-- The first and the third of four rows removed. -/
example :
    let s : Storage := ⟨2, #[.one, .zero, .nan, .one, .zero, .zero, .infinity, .nan], by decide,
      by decide⟩
    (s.compact (· % 2 == 0)).1.data = #[.nan, .one, .infinity, .nan] ∧
      (s.compact (· % 2 == 0)).2 = ⟨2, #[noLabel, 0, noLabel, 1]⟩ := by decide

end Neighbors.Storage
