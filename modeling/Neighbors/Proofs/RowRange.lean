import Neighbors.Proofs.RowList
import Neighbors.Proofs.InPlace.Storage

/-!
# Several rows at once and one by one

A flat index reconstructs the vectors of `n` labels in a row as one piece of its buffer; the way
that every index has looks at the labels and then reconstructs them one by one. The one tests
offsets and the other labels, each with its own overflows, and yet they do the same whatever the
label, the number and the buffer are (`Flat.reconstructN_eq_reconstructEach`).
-/

namespace Neighbors

theorem mapM_eq_ok {ε α β : Type} {f : α → Except ε β} {g : α → β} {l : List α}
    (h : ∀ a ∈ l, f a = .ok (g a)) : l.mapM f = .ok (l.map g) := by
  induction l with
  | nil => rfl
  | cons a l ih =>
    rw [List.mapM_cons, h a List.mem_cons_self, ih fun b hb => h b (List.mem_cons_of_mem a hb)]
    rfl

namespace Label

theorem range_le_iff {first : Int} {n count : Nat} (h : 0 ≤ first) :
    first.toNat + n ≤ count ↔ 0 ≤ first ∧ first + n ≤ count := by
  omega

/-- If the number of vectors has 64 bits, the test of a range of labels overflows only where the
range is not stored. -/
theorem rangeWithin_iff {first : Label} {n count : Nat} (hcount : count ≤ Count.limit) :
    rangeWithin first n count = true ↔ 0 ≤ first ∧ first + n ≤ count := by
  rw [rangeWithin, Bool.and_eq_true, decide_eq_true_eq]
  constructor
  · rintro ⟨hpos, hsum⟩
    refine (range_le_iff hpos).1 ?_
    unfold Count.add? at hsum
    split at hsum
    · simpa using hsum
    · cases hsum
  · intro hin
    have hlast : first.toNat + n ≤ count := (range_le_iff hin.1).2 hin
    have hadd : Count.add? first.toNat n = some (first.toNat + n) := if_pos (hlast.trans hcount)
    rw [hadd]
    exact ⟨hin.1, decide_eq_true hlast⟩

end Label

namespace Index

/-- Labels that can be reconstructed are collected end to end, with a blank row for each empty
slot. -/
theorem collectRows_of_done {reconstruct : Label → Floats → Outcome Floats Unit} {d : Nat}
    {blank : Binary32} {labels : List Label} (row : Label → Floats)
    (h : ∀ l ∈ labels, l ≠ noLabel → reconstruct l (.replicate d blank) = .done (row l)) :
    collectRows reconstruct d blank labels = .ok (labels.flatMap fun l =>
      (if l = noLabel then Array.replicate d blank else row l).toList).toArray := by
  unfold collectRows
  rw [mapM_eq_ok (g := fun l => if l = noLabel then Array.replicate d blank else row l)]
  · simp only [bind, Except.bind, List.flatMap_map]
    rfl
  · intro l hl
    dsimp only
    split
    · rfl
    · next hne =>
      rw [h l hl hne]
      rfl

end Index

namespace Flat

variable {f : Flat} {n : Nat} {out : Floats}

def block (f : Flat) (first n : Nat) : Floats :=
  f.vectors.extract (first * f.dimension) ((first + n) * f.dimension)

theorem size_vectors (f : Flat) : f.vectors.size = f.count * f.dimension := f.storage.size_data

theorem count_le_limit (hfits : f.vectors.size ≤ Count.limit) : f.count ≤ Count.limit := by
  have hle : f.count ≤ f.count * f.dimension := Nat.le_mul_of_pos_right _ f.storage.dimension_pos
  rw [size_vectors] at hfits
  exact hle.trans hfits

theorem rows?_eq_block (hfits : f.vectors.size ≤ Count.limit) (first n : Nat) :
    f.storage.rows? first n = if first + n ≤ f.count then some (f.block first n) else none :=
  f.storage.rows?_eq hfits first n

theorem toList_block {first : Nat} (h : first + n ≤ f.count) : (f.block first n).toList =
    (List.range n).flatMap fun i => (rowOf f.dimension f.vectors (first + i)).toList := by
  have hstop : (first + n) * f.dimension ≤ f.vectors.size := by
    rw [size_vectors]
    exact Nat.mul_le_mul_right _ h
  have hsize : (f.block first n).size = n * f.dimension := by
    rw [block, Array.size_extract, Nat.min_eq_left hstop, Nat.add_mul, Nat.add_sub_cancel_left]
  rw [← Slots.flatMap_extract hsize, List.flatMap_map]
  refine List.flatMap_congr fun i hi => ?_
  have hlast : (first + (i + 1)) * f.dimension ≤ (first + n) * f.dimension :=
    Nat.mul_le_mul_right _ (Nat.add_le_add_left (List.mem_range.1 hi) first)
  rw [block, Array.extract_extract, ← Nat.add_mul, ← Nat.add_mul, Nat.min_eq_left hlast]
  rfl

theorem reconstruct_of_lt (hfits : f.vectors.size ≤ Count.limit) {l : Nat} (hl : l < f.count)
    (hout : out.size = f.dimension) :
    Index.reconstruct f l out = .done (rowOf f.dimension f.vectors l) := by
  have hrow : f.storage.row? l = some (rowOf f.dimension f.vectors l) := by
    have hl' : l < f.storage.count := hl
    rw [f.storage.row?_eq hfits, Storage.toList_eq_map, List.getElem?_map, List.getElem?_range hl']
    rfl
  have hstored : Label.isStored (l : Int) f.count = true := Label.isStored_iff.2
    ⟨Int.natCast_nonneg l, Int.ofNat_lt.2 hl⟩
  show Outcome.replace out (f.reconstruct l out) = _
  rw [Flat.reconstruct, hstored, hout, Int.toNat_natCast, hrow]
  simp only [Bool.not_true, Bool.false_eq_true, if_false, ne_eq, not_true_eq_false]
  rfl

/-- What a buffer for `n` vectors from `first` on is given, or the error that leaves it alone. -/
def readRange (f : Flat) (first : Label) (n : Nat) (out : Floats) : Except Error Floats :=
  match Index.checkRows f.dimension n out with
  | .error e => .error e
  | .ok () =>
    if 0 ≤ first ∧ first + n ≤ f.count then .ok (f.block first.toNat n)
    else .error (.labelOutOfRange (first.lastOfRange n) f.count)

theorem checkRows_of_stored (hfits : f.vectors.size ≤ Count.limit) {first : Label}
    (hin : 0 ≤ first ∧ first + n ≤ f.count) (hout : out.size = n * f.dimension) :
    Index.checkRows f.dimension n out = .ok () := by
  have hlast := (Label.range_le_iff hin.1).2 hin
  have hle : n * f.dimension ≤ f.vectors.size := by
    rw [size_vectors]
    exact Nat.mul_le_mul_right _ (Nat.le_of_add_left_le hlast)
  have hmul : Count.mul? n f.dimension = some (n * f.dimension) := if_pos (hle.trans hfits)
  rw [Index.checkRows, hmul, hout]
  exact if_pos rfl

theorem readRange_eq_ok_iff (hfits : f.vectors.size ≤ Count.limit) {first : Label}
    {rows : Floats} : f.readRange first n out = .ok rows ↔
      (out.size = n * f.dimension ∧ 0 ≤ first ∧ first + n ≤ f.count) ∧
        rows = f.block first.toNat n := by
  constructor
  · intro h
    unfold readRange at h
    split at h
    · cases h
    · next hcheck =>
      split at h
      · next hin =>
        cases h
        exact ⟨⟨(Index.size_of_checkRows hcheck).symm, hin⟩, rfl⟩
      · cases h
  · rintro ⟨⟨hout, hin⟩, rfl⟩
    rw [readRange, checkRows_of_stored hfits hin hout]
    exact if_pos hin

theorem reconstructN_eq_readRange (hfits : f.vectors.size ≤ Count.limit) (first : Label) :
    Index.reconstructN f first n out = .replace out (f.readRange first n out) := by
  show Outcome.replace out (f.reconstructN first n out) = _
  unfold Flat.reconstructN readRange
  cases Index.checkRows f.dimension n out with
  | error e => rfl
  | ok u =>
    congr 1
    simp only [bind, Except.bind]
    by_cases hneg : first < 0
    · rw [if_pos hneg, if_neg fun h => Int.not_lt.2 h.1 hneg]
    · rw [if_neg hneg, rows?_eq_block hfits]
      by_cases hin : first.toNat + n ≤ f.count
      · rw [if_pos hin, if_pos ((Label.range_le_iff (Int.not_lt.1 hneg)).1 hin)]
      · rw [if_neg hin, if_neg fun h => hin ((Label.range_le_iff h.1).2 h)]

theorem reconstructEach_eq_readRange (hfits : f.vectors.size ≤ Count.limit) (first : Label) :
    Index.reconstructEach f.dimension f.count (Index.reconstruct f) first n out =
      .replace out (f.readRange first n out) := by
  unfold Index.reconstructEach readRange
  cases Index.checkRows f.dimension n out with
  | error e => rfl
  | ok u =>
    congr 1
    simp only [bind, Except.bind, Label.rangeWithin_iff (count_le_limit hfits)]
    split
    · next hin =>
      have hlast := (Label.range_le_iff hin.1).2 hin
      obtain ⟨j, rfl⟩ := Int.eq_ofNat_of_zero_le hin.1
      rw [Int.toNat_natCast] at hlast ⊢
      rw [Index.collectRows_of_done fun (l : Label) => rowOf f.dimension f.vectors l.toNat]
      · refine congrArg Except.ok (Array.toList_inj.1 ?_)
        rw [toList_block hlast, List.flatMap_map]
        refine List.flatMap_congr fun i _ => ?_
        have hstored : (j : Label) + i ≠ noLabel := Label.natCast_ne_noLabel (j + i)
        rw [if_neg hstored]
        rfl
      · intro l hl _
        obtain ⟨i, hi, rfl⟩ := List.mem_map.1 hl
        have hlt : j + i < f.count :=
          (Nat.add_lt_add_left (List.mem_range.1 hi) j).trans_le hlast
        exact reconstruct_of_lt hfits hlt Array.size_replicate
    · rfl

/-- A flat index whose buffer has a 64-bit length reconstructs the vectors of several labels in a
row just as it would one by one, with the same error or the same vectors. It succeeds where the
buffer has their size and all of them are stored, and then leaves what each of the labels is
reconstructed to, end to end; otherwise it leaves the buffer alone. So a piece of the storage is
found just if its rows are there, whatever overflows. -/
theorem reconstructN_eq_reconstructEach (f : Flat) (hfits : f.vectors.size ≤ Count.limit) :
    (∀ (first : Label) (n : Nat) (out : Floats),
      let whole := Index.reconstructN f first n out
      whole = Index.reconstructEach (Index.dimension f) (Index.count f) (Index.reconstruct f)
        first n out ∧
      (whole.answer = .ok () ↔ out.size = n * f.dimension ∧ 0 ≤ first ∧ first + n ≤ f.count) ∧
      (whole.answer = .ok () → ∀ blank : Floats, blank.size = f.dimension →
        (∀ t : Nat, t < n → (Index.reconstruct f (first + t) blank).answer = .ok ()) ∧
        whole.state.toList = (List.range n).flatMap fun (t : Nat) =>
          (Index.reconstruct f (first + t) blank).state.toList) ∧
      whole.Atomic out) ∧
    ∀ first n : Nat, (f.storage.rows? first n).isSome = true ↔ first + n ≤ f.count := by
  refine ⟨fun first n out => ?_, fun first n => ?_⟩
  · intro whole
    have hwhole : whole = .replace out (f.readRange first n out) :=
      reconstructN_eq_readRange hfits first
    have hanswer : whole.answer = .ok () ↔ ∃ rows, f.readRange first n out = .ok rows := by
      rw [hwhole]
      cases f.readRange first n out <;> simp [Outcome.replace, Outcome.done, Outcome.fail]
    refine ⟨hwhole.trans (reconstructEach_eq_readRange hfits first).symm, ?_, ?_, ?_⟩
    · rw [hanswer]
      simp [readRange_eq_ok_iff hfits]
    · intro hok blank hblank
      obtain ⟨rows, hread⟩ := hanswer.1 hok
      obtain ⟨⟨-, hin⟩, rfl⟩ := (readRange_eq_ok_iff hfits).1 hread
      have hlast := (Label.range_le_iff hin.1).2 hin
      obtain ⟨j, rfl⟩ := Int.eq_ofNat_of_zero_le hin.1
      rw [Int.toNat_natCast] at hlast hread
      have hrow : ∀ t < n, Index.reconstruct f ((j : Label) + t) blank =
          .done (rowOf f.dimension f.vectors (j + t)) := fun t ht =>
        reconstruct_of_lt hfits ((Nat.add_lt_add_left ht j).trans_le hlast) hblank
      refine ⟨fun t ht => by rw [hrow t ht]; rfl, ?_⟩
      rw [hwhole, hread]
      refine (toList_block hlast).trans (List.flatMap_congr fun t ht => ?_)
      rw [hrow t (List.mem_range.1 ht)]
      rfl
    · rw [hwhole]
      exact Outcome.atomic_replace out _
  · rw [rows?_eq_block hfits]
    split <;> simp [*]

/-- No vectors at all behind the last one and one label further on, and ranges that overflow. -/
theorem reconstructN_eq_reconstructEach_ends :
    let f : Flat := ⟨⟨2, #[.one, .zero, .nan, .one, .zero, .zero], by decide, by decide⟩, .l2⟩
    let out : Floats := .replicate 4 .one
    let each := Index.reconstructEach (Index.dimension f) (Index.count f) (Index.reconstruct f)
    f.vectors.size ≤ Count.limit ∧ each 1 2 out = .done #[.nan, .one, .zero, .zero] ∧
      (Index.reconstructN f 3 0 #[]).answer = .ok () ∧
      (Index.reconstructN f 4 0 #[]).answer ≠ .ok () ∧
      (each Label.greatest 2 out).answer = .error (.labelOutOfRange Label.greatest 3) ∧
      (Index.reconstructN f Label.greatest 2 out).state = out ∧
      (f.storage.rows? Count.limit Count.limit).isSome = false := by
  intro f out each
  have hfits : f.vectors.size ≤ Count.limit := by decide
  obtain ⟨hrange, hrows⟩ := reconstructN_eq_reconstructEach f hfits
  have hmiddle := hrange 1 2 out
  have hend := hrange 3 0 #[]
  have hpast := hrange 4 0 #[]
  have hover := hrange Label.greatest 2 out
  have herror : (Index.reconstructN f Label.greatest 2 out).answer =
      .error (.labelOutOfRange Label.greatest 3) := by decide +kernel
  refine ⟨hfits, hmiddle.1.symm.trans rfl, hend.2.1.2 (by decide),
    hpast.2.1.not.2 (by decide), ?_, hover.2.2.2 _ herror, ?_⟩
  · exact (congrArg Outcome.answer hover.1.symm).trans herror
  · exact Bool.eq_false_iff.2 ((hrows Count.limit Count.limit).not.2 (by decide))

end Flat

end Neighbors
