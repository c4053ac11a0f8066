import Neighbors.Proofs.Listed
import Neighbors.Proofs.OfferOrder

/-!
# Distances that are no numbers

A NaN compares with nothing. A collector that is full takes none in, but one that was kept before is
never let go: the NaN distances of a row are those among the first `k` vectors
(`TopK.nans_sorted_perm`). If there are none, the row is that of the other vectors alone
(`TopK.ofCandidates_eq_numbers`). If the first vector of all has one, the row lists the first `k`
vectors, however near the others are (`TopK.sorted_perm_take`). So a row shows the best of the
numbers only under the conditions of `Flat.search_numbersFirst_iff`.
-/

namespace Neighbors

namespace Candidate

def numbers (cs : List Candidate) : List Candidate := cs.filter fun c => !c.distance.isNaN

def nans (cs : List Candidate) : List Candidate := cs.filter fun c => c.distance.isNaN

@[simp] theorem mem_numbers {cs : List Candidate} {c : Candidate} :
    c ∈ numbers cs ↔ c ∈ cs ∧ c.IsNumber := by
  simp [numbers, IsNumber]

@[simp] theorem numbers_append (cs ds : List Candidate) :
    numbers (cs ++ ds) = numbers cs ++ numbers ds := List.filter_append ..

@[simp] theorem nans_append (cs ds : List Candidate) : nans (cs ++ ds) = nans cs ++ nans ds :=
  List.filter_append ..

theorem numbers_eq_self {cs : List Candidate} (h : ∀ c ∈ cs, c.IsNumber) : numbers cs = cs :=
  List.filter_eq_self.2 fun c hc => by simpa [IsNumber] using h c hc

theorem numbers_take_append_drop (k : Nat) (cs : List Candidate) :
    numbers (cs.take k) ++ numbers (cs.drop k) = numbers cs := by
  rw [← numbers_append, List.take_append_drop]

theorem numbers_eq_nil_iff {cs : List Candidate} : numbers cs = [] ↔ ∀ c ∈ cs, ¬c.IsNumber := by
  simp [numbers, IsNumber]

theorem nans_eq_nil_iff {cs : List Candidate} : nans cs = [] ↔ ∀ c ∈ cs, c.IsNumber := by
  simp [nans, IsNumber]

theorem Consistent.numbers {cs : List Candidate} (hd : Consistent cs) : Consistent (numbers cs) :=
  fun a ha b hb => hd a (mem_numbers.1 ha).1 b (mem_numbers.1 hb).1

theorem length_nans_add_numbers (cs : List Candidate) :
    (nans cs).length + (numbers cs).length = cs.length :=
  (List.length_eq_length_filter_add _).symm

/-- A NaN ranks neither before nor behind anything. -/
theorem isNumber_of_ranksAfter {metric : Metric} {a b : Candidate}
    (h : ranksAfter metric a b = true) : a.IsNumber ∧ b.IsNumber := by
  unfold IsNumber
  cases metric <;>
    simp [ranksAfter, Metric.isBetter, Binary32.lt, Binary32.eq] at h ⊢ <;> tauto

end Candidate

/-- A sift up leaves an entry where it is if nothing is after it. -/
theorem Heap.siftUp_getElem_of_not_after {α : Type} {size : Nat} (after : α → α → Bool)
    (v : Vector α size) {i j : Nat} (hi : i < size) (hj : j < size) (hne : j ≠ i)
    (hnone : ∀ a, ¬after a v[j] = true) : (siftUp after v i hi)[j] = v[j] := by
  induction v, i, hi using siftUp.induct after with
  | case1 v _ => rw [siftUp, dif_pos rfl]
  | case2 v i hi hi0 parent hafter ih =>
    have hparent : j ≠ parent := by
      rintro rfl
      exact hnone _ hafter
    have hsame : (v.swap i parent)[j] = v[j] := Vector.getElem_swap_of_ne hne hparent
    rw [siftUp, dif_neg hi0, if_pos hafter, ih hparent (by rwa [hsame]), hsame]
  | case3 v i hi hi0 parent hafter => rw [siftUp, dif_neg hi0, if_neg hafter]

open Candidate

namespace TopK

variable {metric : Metric} {k : Nat} {t : TopK} {c : Candidate} {cs : List Candidate}

/-! ## NaN and a full collector -/

theorem push_of_not_after (hfull : t.size = t.capacity)
    (hafter : ∀ h : 0 < t.kept.size, ¬ranksAfter t.metric t.kept[0] c) : t.push c = t := by
  rcases push_cases t c with ⟨-, hp, -⟩ | ⟨-, hroom, -, -⟩ | ⟨-, -, hpos, hafter', -, -⟩ |
    ⟨-, -, hp, -, -⟩
  · exact hp
  · exact absurd hfull (Nat.ne_of_lt hroom)
  · exact absurd hafter' (hafter hpos)
  · exact hp

theorem size_push_of_full (hfull : t.size = t.capacity) (c : Candidate) :
    (t.push c).size = (t.push c).capacity := by
  rw [size_push, push_capacity]
  split
  · omega
  · exact hfull

/-- A full collector passes over every NaN. -/
theorem extend_numbers_of_full (hfull : t.size = t.capacity) (cs : List Candidate) :
    t.extend (numbers cs) = t.extend cs := by
  induction cs generalizing t with
  | nil => rfl
  | cons c cs ih =>
    have htail := ih (size_push_of_full hfull c)
    by_cases hc : c.IsNumber
    · have hcons : numbers (c :: cs) = c :: numbers cs :=
        List.filter_cons_of_pos (by simpa [IsNumber] using hc)
      rw [hcons]
      exact htail
    · have hcons : numbers (c :: cs) = numbers cs :=
        List.filter_cons_of_neg (by simpa [IsNumber] using hc)
      rw [hcons, ih hfull]
      show t.extend cs = (t.push c).extend cs
      rw [push_of_not_after hfull fun _ hafter => hc (isNumber_of_ranksAfter hafter).2]

theorem extend_drop (metric : Metric) (k : Nat) (cs : List Candidate) :
    (ofCandidates metric k (cs.take k)).extend (cs.drop k) = ofCandidates metric k cs := by
  rw [ofCandidates, ← extend_append, List.take_append_drop]
  rfl

theorem size_ofCandidates_take (metric : Metric) (k : Nat) (hl : ∀ c ∈ cs, c.isLabelled = true) :
    (ofCandidates metric k (cs.take k)).size = (cs.take k).length := by
  have hlabelled : (cs.take k).filter isLabelled = cs.take k :=
    List.filter_eq_self.2 fun c hc => hl c (List.mem_of_mem_take hc)
  rw [size_ofCandidates, hlabelled]
  exact Nat.min_eq_right (List.length_take_le k cs)

theorem full_or_drop_eq_nil (metric : Metric) (hl : ∀ c ∈ cs, c.isLabelled = true) :
    (ofCandidates metric k (cs.take k)).size = (ofCandidates metric k (cs.take k)).capacity ∨
      cs.drop k = [] := by
  by_cases hk : k ≤ cs.length
  · left
    have hcapacity : (ofCandidates metric k (cs.take k)).capacity = k := extend_capacity _ _
    rw [size_ofCandidates_take metric k hl, hcapacity, List.length_take, Nat.min_eq_left hk]
  · exact .inr (List.drop_of_length_le (Nat.le_of_not_le hk))

/-- If the first `k` candidates are numbers, those that are not might as well not be offered. -/
theorem ofCandidates_eq_numbers (hl : ∀ c ∈ cs, c.isLabelled = true)
    (hn : ∀ c ∈ cs.take k, c.IsNumber) :
    ofCandidates metric k cs = ofCandidates metric k (numbers cs) := by
  have hsplit : numbers cs = cs.take k ++ numbers (cs.drop k) := by
    rw [← numbers_take_append_drop k, numbers_eq_self hn]
  have hnumbers : ofCandidates metric k (numbers cs) =
      (ofCandidates metric k (cs.take k)).extend (numbers (cs.drop k)) := by
    rw [hsplit]
    exact extend_append ..
  rw [hnumbers, ← extend_drop]
  rcases full_or_drop_eq_nil metric hl with hfull | hnil
  · exact (extend_numbers_of_full hfull _).symm
  · rw [hnil]
    rfl

/-! ## NaN that is kept -/

/-- A NaN is let go only by a collector that is full when the NaN is offered. -/
theorem nans_dropped (t : TopK) (hl : c.isLabelled = true) :
    nans (t.dropped c) = if t.size < t.capacity then [] else nans [c] := by
  show nans (t.dropped c) = if t.kept.size < t.capacity then [] else nans [c]
  rcases push_cases t c with ⟨hno, -, -⟩ | ⟨-, hroom, hd, -⟩ | ⟨-, hfull, hpos, hafter, hd, -⟩ |
    ⟨-, hfull, -, hd, -⟩
  · exact absurd hl hno
  · rw [hd, if_pos hroom]
    rfl
  · obtain ⟨hroot, hc⟩ := isNumber_of_ranksAfter hafter
    rw [hd, if_neg (Nat.not_lt.2 (Nat.le_of_eq hfull.symm)),
      nans_eq_nil_iff.2 (by simpa using hroot), nans_eq_nil_iff.2 (by simpa using hc)]
  · rw [hd, if_neg (Nat.not_lt.2 (Nat.le_of_eq hfull.symm))]

theorem nans_droppedOf (t : TopK) (hl : ∀ c ∈ cs, c.isLabelled = true) :
    nans (t.droppedOf cs) = nans (cs.drop (t.capacity - t.size)) := by
  induction cs generalizing t with
  | nil => simp [droppedOf]
  | cons c cs ih =>
    have hc := hl c List.mem_cons_self
    have htail := ih (t.push c) fun a ha => hl a (List.mem_cons_of_mem c ha)
    have hsize := size_push t c
    rw [if_pos hc] at hsize
    rw [push_capacity, hsize] at htail
    rw [droppedOf, nans_append, nans_dropped t hc, htail]
    -- Each offer takes a place, as long as there are any.
    by_cases hroom : t.size < t.capacity
    · have hrest : t.capacity - t.size = t.capacity - min t.capacity (t.size + 1) + 1 := by omega
      rw [if_pos hroom, hrest, List.drop_succ_cons, List.nil_append]
    · have hnone : t.capacity - min t.capacity (t.size + 1) = 0 := by omega
      have hfull : t.capacity - t.size = 0 := by omega
      rw [if_neg hroom, hnone, hfull, List.drop_zero, List.drop_zero, ← nans_append,
        List.singleton_append]

/-- The NaN distances that are kept are those of the first `k` candidates. -/
theorem nans_sorted_perm (metric : Metric) (k : Nat) (hl : ∀ c ∈ cs, c.isLabelled = true) :
    (nans (ofCandidates metric k cs).sorted).Perm (nans (cs.take k)) := by
  have hoffered := extend_perm (empty metric k) cs
  rw [List.filter_eq_self.2 hl] at hoffered
  have hnans : (nans (ofCandidates metric k cs).kept.toList ++
      nans ((empty metric k).droppedOf cs)).Perm (nans (cs.take k) ++ nans (cs.drop k)) := by
    rw [← nans_append, ← nans_append, List.take_append_drop]
    exact hoffered.filter _
  rw [nans_droppedOf (empty metric k) hl] at hnans
  exact ((sorted_perm _).filter _).trans ((List.perm_append_right_iff _).1 hnans)

theorem length_numbers_sorted (metric : Metric) (k : Nat) (hl : ∀ c ∈ cs, c.isLabelled = true) :
    (numbers (ofCandidates metric k cs).sorted).length = (numbers (cs.take k)).length := by
  have hnans := (nans_sorted_perm metric k hl).length_eq
  have hkept := length_nans_add_numbers (ofCandidates metric k cs).sorted
  have hfirst := length_nans_add_numbers (cs.take k)
  rw [length_sorted, size_ofCandidates, List.filter_eq_self.2 hl] at hkept
  rw [List.length_take] at hfirst
  omega

/-! ## NaN at the root -/

theorem push_kept_root {root : Candidate} (hroot : t.kept[0]? = some root)
    (hnan : ¬root.IsNumber) (c : Candidate) : (t.push c).kept[0]? = some root := by
  obtain ⟨hpos, rfl⟩ := Array.getElem?_eq_some_iff.1 hroot
  rcases push_cases t c with ⟨-, hp, -⟩ | ⟨-, -, -, hk⟩ | ⟨-, -, hpos', hafter, -, -⟩ |
    ⟨-, -, hp, -, -⟩
  · rwa [hp]
  · have hsize : 0 < (t.kept.push c).size := by simp
    have hsame : (t.kept.push c).toVector[0] = t.kept[0] := by simp [Array.getElem_push, hpos]
    -- Nothing is after a NaN, so the new candidate stops below the root.
    have hstays := Heap.siftUp_getElem_of_not_after (Candidate.ranksAfter t.metric)
      (t.kept.push c).toVector (t.size_lt_push c) hsize (Nat.ne_of_lt hpos)
      fun a ha => hnan (hsame ▸ (isNumber_of_ranksAfter ha).2)
    rw [hk, Vector.getElem?_toArray, Vector.getElem?_eq_getElem hsize, hstays, hsame]
  · exact absurd (isNumber_of_ranksAfter hafter).1 hnan
  · rwa [hp]

theorem extend_kept_root {root : Candidate} (hroot : t.kept[0]? = some root)
    (hnan : ¬root.IsNumber) (cs : List Candidate) : (t.extend cs).kept[0]? = some root := by
  induction cs generalizing t with
  | nil => exact hroot
  | cons c cs ih => exact ih (push_kept_root hroot hnan c)

theorem extend_of_full_nan_root (hfull : t.size = t.capacity)
    (hnan : ∀ h : 0 < t.kept.size, ¬t.kept[0].IsNumber) (cs : List Candidate) :
    t.extend cs = t := by
  induction cs with
  | nil => rfl
  | cons c cs ih =>
    show (t.push c).extend cs = t
    rw [push_of_not_after hfull fun h hafter => hnan h (isNumber_of_ranksAfter hafter).1, ih]

theorem root_of_nan (metric : Metric) (hk : 0 < k) {first : Candidate}
    (hl : first.isLabelled = true) (hnan : ¬first.IsNumber) (cs : List Candidate) :
    (ofCandidates metric k (first :: cs)).kept[0]? = some first := by
  refine extend_kept_root (t := (empty metric k).push first) ?_ hnan cs
  have hlabel : ¬first.label = noLabel := by simpa [isLabelled] using hl
  simp [push, empty, Heap.siftUp, hlabel, hk]

/-- If the first candidate is no number, what is kept are the first `k`. -/
theorem sorted_perm_take (metric : Metric) (k : Nat) (hl : ∀ c ∈ cs, c.isLabelled = true)
    (hnan : ∀ c ∈ cs.head?, ¬c.IsNumber) :
    (ofCandidates metric k cs).sorted.Perm (cs.take k) := by
  have hsame : ofCandidates metric k cs = ofCandidates metric k (cs.take k) := by
    rw [← extend_drop]
    rcases full_or_drop_eq_nil (k := k) metric hl with hfull | hnil
    · refine extend_of_full_nan_root hfull (fun hpos => ?_) _
      obtain _ | k := k
      · exact absurd (Nat.lt_of_lt_of_le hpos (TopK.size_le _)) (Nat.not_lt_zero 0)
      obtain _ | ⟨first, cs⟩ := cs
      · exact absurd hpos (Nat.lt_irrefl 0)
      have hfirst : ¬first.IsNumber := hnan first rfl
      have hroot : (ofCandidates metric (k + 1) ((first :: cs).take (k + 1))).kept[0]? =
          some first :=
        root_of_nan metric k.succ_pos (hl first List.mem_cons_self) hfirst (cs.take k)
      rw [Array.getElem?_eq_getElem hpos] at hroot
      rwa [Option.some.inj hroot]
    · rw [hnil]
      rfl
  have hsub := (sorted_subperm metric k (cs.take k)).trans List.filter_sublist.subperm
  rw [hsame]
  refine hsub.perm_of_length_le (Nat.le_of_eq ?_)
  rw [length_sorted, size_ofCandidates_take metric k hl]

/-! ## Rows -/

theorem filter_isLabelled_finish (metric : Metric) (k : Nat)
    (hl : ∀ c ∈ cs, c.isLabelled = true) :
    (ofCandidates metric k cs).finish.filter isLabelled = (ofCandidates metric k cs).sorted := by
  have hkept : ∀ c ∈ (ofCandidates metric k cs).sorted, c.isLabelled = true := fun c hc =>
    hl c (List.mem_of_mem_filter ((sorted_subperm metric k cs).subset hc))
  rw [finish, List.filter_append, List.filter_eq_self.2 hkept]
  simp [isLabelled, padding]

theorem nans_finish_perm (metric : Metric) (k : Nat) (hl : ∀ c ∈ cs, c.isLabelled = true) :
    (nans (ofCandidates metric k cs).finish).Perm (nans (cs.take k)) := by
  have hpadding : ∀ n, nans (List.replicate n padding) = [] := fun n =>
    nans_eq_nil_iff.2 fun c hc => by
      rw [List.eq_of_mem_replicate hc]
      decide
  rw [finish, nans_append, hpadding, List.append_nil]
  exact nans_sorted_perm metric k hl

/-- If the first `k` candidates are numbers, the row is the beginning of the numbers in order. -/
theorem finish_of_numbers (hl : ∀ c ∈ cs, c.isLabelled = true) (hd : Consistent cs)
    (hn : ∀ c ∈ cs.take k, c.IsNumber) : (ofCandidates metric k cs).finish =
      (bestFirst metric (numbers cs)).take k ++ List.replicate (k - cs.length) .padding := by
  have hlabelled : (numbers cs).filter isLabelled = numbers cs :=
    List.filter_eq_self.2 fun c hc => hl c (mem_numbers.1 hc).1
  have hd' : Consistent ((numbers cs).filter isLabelled) := by
    rw [hlabelled]
    exact hd.numbers
  have hrow := finish_ofCandidates metric k (fun c hc => (mem_numbers.1 hc).2) hd'
  have hrest : k - (numbers cs).length = k - cs.length := by
    have hnans := length_nans_add_numbers cs
    have hfirst := length_nans_add_numbers (cs.take k)
    rw [nans_eq_nil_iff.2 hn, List.length_take] at hfirst
    have hsub : (numbers (cs.take k)).length ≤ (numbers cs).length :=
      ((List.take_sublist k cs).filter _).length_le
    simp at hfirst
    omega
  rw [ofCandidates_eq_numbers hl hn, hrow, hlabelled, hrest]

theorem sorted_of_numbers (hl : ∀ c ∈ cs, c.isLabelled = true) (hd : Consistent cs)
    (hn : ∀ c ∈ cs.take k, c.IsNumber) :
    (ofCandidates metric k cs).sorted = (bestFirst metric (numbers cs)).take k := by
  have hbest : ∀ c ∈ (bestFirst metric (numbers cs)).take k, c.isLabelled = true := fun c hc =>
    hl c (mem_numbers.1 ((bestFirst_perm _ _).mem_iff.1 (List.mem_of_mem_take hc))).1
  rw [← filter_isLabelled_finish metric k hl, finish_of_numbers hl hd hn, List.filter_append,
    List.filter_eq_self.2 hbest]
  simp [isLabelled, padding]

theorem numbers_sorted_perm (metric : Metric) (hl : ∀ c ∈ cs, c.isLabelled = true)
    (hrest : ∀ c ∈ cs.drop k, ¬c.IsNumber) :
    (numbers (ofCandidates metric k cs).sorted).Perm (numbers cs) := by
  have hsub := (sorted_subperm metric k cs).trans List.filter_sublist.subperm
  refine (hsub.filter _).perm_of_length_le (Nat.le_of_eq ?_)
  show (numbers cs).length = (numbers (ofCandidates metric k cs).sorted).length
  rw [length_numbers_sorted metric k hl, ← numbers_take_append_drop k cs, List.length_append,
    numbers_eq_nil_iff.2 hrest, List.length_nil, Nat.add_zero]

end TopK

/-- What one may ask of a row of `k` slots where some of the distances are NaN: it shows one only if
there are fewer than `k` numbers, and the numbers that it shows are the best of all, in order. -/
structure NumbersFirst (metric : Metric) (k : Nat) (cs : List Candidate) (row : Slots) : Prop where
  fewer : (∃ c ∈ row.candidates, ¬c.IsNumber) → (numbers cs).length < k
  best : numbers (row.candidates.filter isLabelled) = (bestFirst metric (numbers cs)).take k

/-- The best numbers are shown if all of the first `k` candidates are numbers. They are shown also
if none of the others is, but perhaps not in order. Otherwise they are not. -/
theorem numbersFirst_iff {metric : Metric} {k : Nat} {cs : List Candidate}
    (hl : ∀ c ∈ cs, c.isLabelled = true) (hd : Consistent cs) :
    NumbersFirst metric k cs (.ofCandidates (TopK.ofCandidates metric k cs).finish) ↔
      (∀ c ∈ cs.take k, c.IsNumber) ∨ (∀ c ∈ cs.drop k, ¬c.IsNumber) ∧
        (numbers ((TopK.ofCandidates metric k cs).finish.filter isLabelled)).Pairwise
          fun a b => a.rank metric ≤ b.rank metric := by
  have hentries := TopK.filter_isLabelled_finish metric k hl
  have hperm := bestFirst_perm metric (numbers cs)
  have hcount := TopK.length_numbers_sorted metric k hl
  have hsplit := congrArg List.length (numbers_take_append_drop k cs)
  rw [List.length_append] at hsplit
  have hshown : (∃ c ∈ (Slots.ofCandidates (TopK.ofCandidates metric k cs).finish).candidates,
      ¬c.IsNumber) ↔ ¬∀ c ∈ cs.take k, c.IsNumber := by
    have hnil := (TopK.nans_finish_perm metric k hl).length_eq
    rw [Slots.candidates_ofCandidates, ← nans_eq_nil_iff, ← List.length_eq_zero_iff, ← hnil,
      List.length_eq_zero_iff, nans_eq_nil_iff]
    simp
  constructor
  · rintro ⟨hfewer, hbest⟩
    rw [Slots.candidates_ofCandidates] at hbest
    by_cases hn : ∀ c ∈ cs.take k, c.IsNumber
    · exact .inl hn
    · have hlt := hfewer (hshown.2 hn)
      rw [List.take_of_length_le (by rw [hperm.length_eq]; exact hlt.le)] at hbest
      have hlen := congrArg List.length hbest
      rw [hentries, hperm.length_eq] at hlen
      exact .inr ⟨numbers_eq_nil_iff.1 (List.eq_nil_of_length_eq_zero (by omega)),
        hbest ▸ bestFirst_pairwise metric _⟩
  · rintro (hn | ⟨hrest, hsorted⟩)
    · refine ⟨fun hnan => absurd hn (hshown.1 hnan), ?_⟩
      rw [Slots.candidates_ofCandidates, hentries, TopK.sorted_of_numbers hl hd hn]
      exact numbers_eq_self fun c hc =>
        (mem_numbers.1 (hperm.mem_iff.1 (List.mem_of_mem_take hc))).2
    · have hnone : (numbers (cs.drop k)).length = 0 :=
        List.length_eq_zero_iff.2 (numbers_eq_nil_iff.2 hrest)
      have hfirst := length_nans_add_numbers (cs.take k)
      rw [List.length_take] at hfirst
      refine ⟨fun hnan => ?_, ?_⟩
      · have hpos : 0 < (nans (cs.take k)).length :=
          List.length_pos_iff.2 fun hnil => hshown.1 hnan (nans_eq_nil_iff.1 hnil)
        omega
      · have hfit : (bestFirst metric (numbers cs)).length ≤ k := by
          rw [hperm.length_eq]
          omega
        rw [hentries] at hsorted
        rw [Slots.candidates_ofCandidates, hentries, List.take_of_length_le hfit]
        exact eq_bestFirst (TopK.numbers_sorted_perm metric hl hrest) hsorted hd.numbers

/-- A row that holds all candidates, with the numbers in no order. -/
example : (TopK.ofCandidates .l2 4 [⟨.zero, 0⟩, ⟨.nan, 1⟩, ⟨.one, 2⟩, ⟨.infinity, 3⟩]).finish =
    [⟨.nan, 1⟩, ⟨.zero, 0⟩, ⟨.infinity, 3⟩, ⟨.one, 2⟩] := by decide +kernel

namespace Flat

variable {x : Floats} {k nq : Nat} {out : Slots}

theorem isLabelled_of_mem_candidates {f : Flat} {q : Floats} {c : Candidate}
    (hc : c ∈ f.candidates q) : c.isLabelled = true := by
  rw [candidates_eq_scored, ← Scan.filter_isLabelled_scored] at hc
  exact List.of_mem_filter hc

/-- A search with buffers of the right size succeeds, but a NaN can keep the best matches out of a
row. Those among the first `k` vectors are shown, and only those. So the row shows the best numbers,
and all of them that fit, just if none of the first `k` distances is NaN, or if all others are and
the row happens to be in order. If none of the first `k` is, the row is as if there were no NaN at
all. If the very first is, the row lists the first `k` vectors. -/
theorem search_numbersFirst_iff (f : Flat) (h : Index.WellShaped f.dimension x k out nq) :
    ∃ found : Slots, Index.search f x k out = .done found ∧ ∀ i < nq,
      let cs := f.candidates (rowOf f.dimension x i)
      let row := found.row k i
      (nans row.candidates).Perm (nans (cs.take k)) ∧
      (NumbersFirst f.metric k cs row ↔ (∀ c ∈ cs.take k, c.IsNumber) ∨
        (∀ c ∈ cs.drop k, ¬c.IsNumber) ∧ (numbers (row.candidates.filter isLabelled)).Pairwise
          fun a b => a.rank f.metric ≤ b.rank f.metric) ∧
      ((∀ c ∈ cs.take k, c.IsNumber) → row = .ofCandidates
        ((bestFirst f.metric (numbers cs)).take k ++ List.replicate (k - f.count) .padding)) ∧
      ((∀ c ∈ cs.head?, ¬c.IsNumber) → (row.candidates.filter isLabelled).Perm (cs.take k)) := by
  refine ⟨_, search_of_shape f h.checkShape, fun i hi => ?_⟩
  intro cs row
  have hrow : row = .ofCandidates (TopK.ofCandidates f.metric k cs).finish :=
    Scan.best_row (h.eq_div ▸ hi) (h.room hi)
  have hl : ∀ c ∈ cs, c.isLabelled = true := fun _ => isLabelled_of_mem_candidates
  have hd : Consistent cs := f.consistent_candidates _
  have hcount : cs.length = f.count := f.length_candidates _
  rw [hrow, Slots.candidates_ofCandidates]
  refine ⟨TopK.nans_finish_perm f.metric k hl, numbersFirst_iff hl hd, fun hn => ?_, fun hnan => ?_⟩
  · rw [TopK.finish_of_numbers hl hd hn, hcount]
  · rw [TopK.filter_isLabelled_finish f.metric k hl]
    exact TopK.sorted_perm_take f.metric k hl hnan

/-- A NaN in the only slot, and a vector near the query behind it. -/
theorem search_numbersFirst_hidden :
    let f : Flat := ⟨⟨1, #[.nan, .one], by decide, by decide⟩, .l2⟩
    let out : Slots := ⟨.replicate 1 .one, .replicate 1 9⟩
    let cs := f.candidates (rowOf 1 #[.zero] 0)
    Index.WellShaped f.dimension #[.zero] 1 out 1 ∧ numbers cs = [⟨.one, 1⟩] ∧
      ∃ found : Slots, Index.search f #[.zero] 1 out = .done found ∧
        (found.row 1 0).candidates.filter isLabelled = [⟨.nan, 0⟩] ∧
        ¬NumbersFirst .l2 1 cs (found.row 1 0) := by
  intro f out cs
  have hshape : Index.WellShaped f.dimension #[.zero] 1 out 1 := by decide
  obtain ⟨found, hfound, hrows⟩ := search_numbersFirst_iff f hshape
  obtain ⟨-, hiff, -, hhead⟩ := hrows 0 Nat.one_pos
  have hshown := hhead (by decide)
  rw [show (f.candidates _).take 1 = [⟨.nan, 0⟩] by decide, List.perm_singleton] at hshown
  refine ⟨hshape, by decide, found, hfound, hshown, fun hfirst => ?_⟩
  rcases hiff.1 hfirst with hn | ⟨hrest, -⟩
  · exact absurd hn (by decide)
  · exact absurd hrest (by decide)

end Flat

end Neighbors
