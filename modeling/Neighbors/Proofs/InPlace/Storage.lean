import Neighbors.Proofs.InPlace.SortedAxis

/-!
# A storage in place

A compaction moves the rows that are kept towards the front of the buffer, where they have been read
before, and cuts off the rest. A row is copied out to a buffer of its length.
-/

namespace Neighbors

namespace Buffer

variable {α : Type} {a : Array α} {start stop target : Nat}

/-- A range moved to the front: it stands at its new place, and behind that nothing changes. -/
theorem copyWithin?_eq (h : start ≤ stop) (hstop : stop ≤ a.size) (ht : target ≤ start) :
    ∃ b, copyWithin? a start stop target = some b ∧ b.size = a.size ∧
      b.extract 0 (target + (stop - start)) = a.extract 0 target ++ a.extract start stop ∧
      ∀ i, target + (stop - start) ≤ i → b[i]? = a[i]? := by
  have hsource : (a.extract start stop).size = stop - start := by simp; omega
  have hfront : (a.extract 0 target ++ a.extract start stop).size = target + (stop - start) := by
    simp; omega
  have hinside : target + (stop - start) ≤ a.size := by omega
  refine ⟨a.extract 0 target ++ a.extract start stop ++
    a.extract (target + (stop - start)) a.size, ?_, ?_, ?_, fun i hi => ?_⟩
  · rw [copyWithin?, slice?_eq_some h hstop]
    simp only [Option.bind_eq_bind, Option.bind_some, hsource,
      slice?_eq_some (Nat.le_add_right target (stop - start)) hinside]
    rfl
  · rw [Array.size_append, hfront, Array.size_extract]
    omega
  · rw [Array.extract_append, ← hfront, Array.extract_eq_self_of_le (Nat.le_refl _)]
    simp
  · rw [Array.getElem?_append_right (by rwa [hfront]), hfront, Array.getElem?_extract]
    by_cases hin : i < a.size
    · rw [if_pos (by omega), Nat.add_sub_cancel' hi]
    · rw [if_neg (by omega), Array.getElem?_eq_none (Nat.not_lt.1 hin)]

end Buffer

namespace Storage

/-- A pass of a compaction in place: the buffer, how many rows are kept at its front, and the new
labels of the rows seen. -/
structure Moving where
  data : Floats
  kept : Nat
  oldToNew : Array Label

/-- Looks at row `i`: removes it, or moves it to the end of the kept rows. -/
def Moving.step? (d : Nat) (remove : Nat → Bool) (m : Moving) (i : Nat) : Option Moving :=
  if remove i then some { m with oldToNew := m.oldToNew.push noLabel }
  else do
    let data ← if m.kept < i then Buffer.copyWithin? m.data (i * d) ((i + 1) * d) (m.kept * d)
      else some m.data
    return ⟨data, m.kept + 1, m.oldToNew.push m.kept⟩

def compact? (s : Storage) (remove : Nat → Bool) : Option (Storage × Compaction) := do
  let m ← (List.range s.count).foldlM (Moving.step? s.dimension remove) ⟨s.data, 0, #[]⟩
  let data := m.data.extract 0 (m.kept * s.dimension)
  let removed ← Count.sub? s.count m.kept
  if h : data.size % s.dimension = 0 then
    some ({ s with data := data, whole := h }, ⟨removed, m.oldToNew⟩)
  else none

variable {s : Storage}

/-- What both compactions have done when they have seen `n` rows: the rows behind those are where
they were. -/
structure Moving.Upto (s : Storage) (n : Nat) (m : Moving) (c : Compacting s.dimension) : Prop where
  size : m.data.size = s.data.size
  front : m.data.extract 0 (m.kept * s.dimension) = c.data
  behind : ∀ i, n * s.dimension ≤ i → m.data[i]? = s.data[i]?
  kept : m.kept = c.kept
  kept_le : m.kept ≤ n
  oldToNew : m.oldToNew = c.oldToNew

theorem Moving.Upto.rowOf_data {m : Moving} {n : Nat} {c : Compacting s.dimension}
    (h : Upto s n m c) : rowOf s.dimension m.data n = rowOf s.dimension s.data n := by
  refine Array.ext_getElem? fun j => ?_
  simp only [rowOf, Array.getElem?_extract, h.size]
  split
  · exact h.behind _ (Nat.le_add_right _ _)
  · rfl

theorem Moving.Upto.step (remove : Nat → Bool) {m : Moving} {i : Fin s.count}
    {c : Compacting s.dimension} (h : Upto s i m c) : ∃ m', m.step? s.dimension remove i = some m' ∧
      Upto s (i + 1) m' (Compacting.step s remove c i) := by
  have hle : (i : Nat) * s.dimension ≤ (i + 1) * s.dimension :=
    Nat.mul_le_mul_right _ (Nat.le_succ _)
  have hstop : ((i : Nat) + 1) * s.dimension ≤ m.data.size := by
    rw [h.size, s.size_data]
    exact Nat.mul_le_mul_right _ i.isLt
  have hwidth : ((i : Nat) + 1) * s.dimension - i * s.dimension = s.dimension := by
    rw [Nat.succ_mul, Nat.add_sub_cancel_left]
  have htarget : m.kept * s.dimension ≤ i * s.dimension := Nat.mul_le_mul_right _ h.kept_le
  unfold Moving.step? Compacting.step
  cases remove i with
  | true =>
    refine ⟨_, rfl, h.size, h.front, fun j hj => h.behind j (hle.trans hj), h.kept,
      Nat.le_succ_of_le h.kept_le, ?_⟩
    exact congrArg (·.push noLabel) h.oldToNew
  | false =>
    have hlabels : m.oldToNew.push (m.kept : Label) = c.oldToNew.push (c.kept : Label) := by
      rw [h.oldToNew, h.kept]
    have hend : (m.kept + 1) * s.dimension = m.kept * s.dimension + s.dimension := Nat.succ_mul _ _
    by_cases hlt : m.kept < i
    · obtain ⟨data, hcopy, hsize, hfront, hbehind⟩ := Buffer.copyWithin?_eq hle hstop htarget
      rw [hwidth] at hfront hbehind
      refine ⟨⟨data, m.kept + 1, m.oldToNew.push m.kept⟩, ?_, hsize.trans h.size, ?_,
        fun j hj => ?_, congrArg (· + 1) h.kept, Nat.succ_le_succ h.kept_le, hlabels⟩
      · simp only [Bool.false_eq_true, if_false, if_pos hlt, hcopy]
        rfl
      · rw [hend, hfront, h.front]
        exact congrArg (c.data ++ ·) h.rowOf_data
      · rw [hbehind j (by omega), h.behind j (hle.trans hj)]
    · have hkept : m.kept = i := Nat.le_antisymm h.kept_le (Nat.not_lt.1 hlt)
      refine ⟨⟨m.data, m.kept + 1, m.oldToNew.push m.kept⟩, ?_, h.size, ?_,
        fun j hj => h.behind j (hle.trans hj), congrArg (· + 1) h.kept,
        Nat.succ_le_succ h.kept_le, hlabels⟩
      · simp only [Bool.false_eq_true, if_false, if_neg hlt]
        rfl
      · show m.data.extract 0 ((m.kept + 1) * s.dimension) = c.data ++ rowOf s.dimension s.data i
        rw [← h.front, ← h.rowOf_data, rowOf, hkept, Array.extract_append_extract,
          Nat.min_eq_left (Nat.zero_le _), Nat.max_eq_right hle]

theorem compact?_eq (s : Storage) (remove : Nat → Bool) :
    s.compact? remove = some (s.compact remove) := by
  have hrun := foldl_finRange (n := s.count)
    (P := fun n c => ∃ m, (List.range n).foldlM (Moving.step? s.dimension remove)
      ⟨s.data, 0, #[]⟩ = some m ∧ Moving.Upto s n m c)
    (Compacting.step s remove) (a := ⟨#[], 0, #[], by simp⟩)
    ⟨_, rfl, rfl, by simp, fun _ _ => rfl, rfl, Nat.le_refl 0, rfl⟩ fun i c ⟨m, hm, hup⟩ => by
      obtain ⟨m', hstep, hup'⟩ := hup.step remove
      refine ⟨m', ?_, hup'⟩
      rw [List.range_succ, List.foldlM_append, hm]
      simp [hstep]
  obtain ⟨m, hm, hup⟩ := hrun
  have hsub : Count.sub? s.count m.kept = some (s.count - m.kept) := if_pos hup.kept_le
  have hdata : m.data.extract 0 (m.kept * s.dimension) = (s.compact remove).1.data := hup.front
  have hwhole : (s.compact remove).1.data.size % s.dimension = 0 := (s.compact remove).1.whole
  have hcompaction : (s.compact remove).2 = ⟨s.count - m.kept, m.oldToNew⟩ := by
    rw [hup.kept, hup.oldToNew]
    rfl
  rw [compact?, hm]
  simp only [Option.bind_eq_bind, Option.bind_some, hsub, hdata, ← hcompaction]
  rw [dif_pos hwhole]
  rfl

end Storage

/-! ## Rows copied out -/

theorem Index.size_of_checkRows {d n : Nat} {out : Floats} {u : Unit}
    (h : checkRows d n out = .ok u) : n * d = out.size := by
  unfold checkRows at h
  split at h
  · next hmul =>
    unfold Count.mul? at hmul
    split at hmul
    · exact Option.some.inj hmul
    · cases hmul
  · cases h

namespace Flat

variable (f : Flat)

def remove? (f : Flat) (selector : Selector) : Option (Flat × Compaction) := do
  let (storage, compaction) ← f.storage.compact? fun i => selector.isMember i
  return ({ f with storage }, compaction)

def reconstruct? (f : Flat) (label : Label) (out : Floats) : Option (Outcome Floats Unit) :=
  if !label.isStored f.count then some (.fail (.labelOutOfRange label f.count) out)
  else if out.size ≠ f.dimension then
    some (.fail (.dimensionMismatch f.dimension out.size) out)
  else match f.storage.row? label.toNat with
    | some row => (Buffer.copy? out row).map .done
    | none => some (.done out)

def reconstructN? (f : Flat) (first : Label) (n : Nat) (out : Floats) :
    Option (Outcome Floats Unit) :=
  match Index.checkRows f.dimension n out with
  | .error e => some (.fail e out)
  | .ok () =>
    match if first < 0 then none else f.storage.rows? first.toNat n with
    | some rows => (Buffer.copy? out rows).map .done
    | none => some (.fail (.labelOutOfRange (first.lastOfRange n) f.count) out)

theorem remove?_eq (selector : Selector) : f.remove? selector = some (f.remove selector) := by
  rw [remove?, Storage.compact?_eq]
  rfl

theorem reconstruct?_eq (label : Label) (out : Floats) :
    f.reconstruct? label out = some (.replace out (f.reconstruct label out)) := by
  unfold reconstruct? reconstruct
  by_cases hstored : label.isStored f.count = true
  · by_cases hsize : out.size ≠ f.dimension
    · simp only [hstored, Bool.not_true, Bool.false_eq_true, if_false, if_pos hsize]
      rfl
    · simp only [hstored, Bool.not_true, Bool.false_eq_true, if_false, if_neg hsize]
      cases hrow : f.storage.row? label.toNat with
      | none => rfl
      | some row =>
        have hcopy : row.size = out.size := by
          rw [Storage.size_of_rows? hrow, Nat.one_mul]
          exact (not_not.1 hsize).symm
        dsimp only
        rw [Buffer.copy?_eq_some hcopy]
        rfl
  · simp only [hstored, Bool.not_false, if_true]
    rfl

theorem reconstructN?_eq (first : Label) (n : Nat) (out : Floats) :
    f.reconstructN? first n out = some (.replace out (f.reconstructN first n out)) := by
  unfold reconstructN? reconstructN
  cases hcheck : Index.checkRows f.dimension n out with
  | error e => rfl
  | ok u =>
    have hsize := Index.size_of_checkRows hcheck
    simp only [bind, Except.bind]
    cases hrows : (if first < 0 then none else f.storage.rows? first.toNat n) with
    | none => rfl
    | some rows =>
      have hfound : f.storage.rows? first.toNat n = some rows := by
        split at hrows
        · cases hrows
        · exact hrows
      have hcopy : rows.size = out.size := (Storage.size_of_rows? hfound).trans hsize
      dsimp only
      rw [Buffer.copy?_eq_some hcopy]
      rfl

end Flat

end Neighbors
