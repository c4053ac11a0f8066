import Neighbors.TopK
import Neighbors.Proofs.Heap
import Neighbors.Proofs.Binary32.Order
import Mathlib.Data.Prod.Lex
import Mathlib.Data.List.Nodup
import Mathlib.Data.List.Perm.Basic

/-!
# The collector keeps the best candidates

`dropped` and `droppedOf` name what a collector lets go. Whatever the distances are, what it keeps
and what it drops is what it was offered (`extend_perm`), and it is as full as it can be
(`size_extend`). Without NaN, what it keeps is a heap that ranks ahead of everything dropped
(`Leads`), so that a row is the beginning of the sorted candidates (`finish_ofCandidates`).
-/

namespace Neighbors

/-- Ranks distances, the best one first. -/
def Metric.rank : Metric → Binary32 → Int
  | l2, distance => distance.key
  | innerProduct, distance => -distance.key

theorem Metric.isBetter_iff (metric : Metric) {a b : Binary32} (ha : ¬a.isNaN = true)
    (hb : ¬b.isNaN = true) : metric.isBetter a b = true ↔ metric.rank a < metric.rank b := by
  cases metric with
  | l2 => exact Binary32.lt_iff ha hb
  | innerProduct => rw [isBetter, Binary32.lt_iff hb ha]; simp [rank]

theorem Metric.eq_iff_rank_eq (metric : Metric) {a b : Binary32} (ha : ¬a.isNaN = true)
    (hb : ¬b.isNaN = true) : a.eq b = true ↔ metric.rank a = metric.rank b := by
  rw [Binary32.eq_iff ha hb]
  cases metric <;> simp [rank]

namespace Candidate

def IsNumber (c : Candidate) : Prop := ¬c.distance.isNaN = true

instance (c : Candidate) : Decidable c.IsNumber := inferInstanceAs (Decidable (¬_))

/-- Whether there is a stored vector behind the candidate. -/
def isLabelled (c : Candidate) : Bool := c.label ≠ noLabel

/-- Ranks candidates by distance and, where the distances are equal, by label. -/
def rank (metric : Metric) (c : Candidate) : Int ×ₗ Label := toLex (metric.rank c.distance, c.label)

theorem rank_le_iff (metric : Metric) (a b : Candidate) :
    a.rank metric ≤ b.rank metric ↔ metric.rank a.distance < metric.rank b.distance ∨
      metric.rank a.distance = metric.rank b.distance ∧ a.label ≤ b.label :=
  Prod.Lex.toLex_le_toLex

theorem ranksAfter_ranks (metric : Metric) :
    Heap.Ranks (ranksAfter metric) (rank metric) IsNumber := by
  intro a b ha hb
  rw [ranksAfter, Bool.or_eq_true, Bool.and_eq_true, metric.isBetter_iff hb ha,
    metric.eq_iff_rank_eq ha hb, decide_eq_true_eq, rank, rank, Prod.Lex.toLex_lt_toLex, eq_comm]

def bestFirst (metric : Metric) (cs : List Candidate) : List Candidate :=
  cs.mergeSort fun a b => decide (a.rank metric ≤ b.rank metric)

theorem bestFirst_perm (metric : Metric) (cs : List Candidate) : (bestFirst metric cs).Perm cs :=
  List.mergeSort_perm ..

theorem bestFirst_pairwise (metric : Metric) (cs : List Candidate) :
    (bestFirst metric cs).Pairwise fun a b => a.rank metric ≤ b.rank metric := by
  have h : (bestFirst metric cs).Pairwise fun a b => decide (a.rank metric ≤ b.rank metric) :=
    List.pairwise_mergeSort
      (fun a b c hab hbc => by simp only [decide_eq_true_eq] at *; exact hab.trans hbc)
      (fun a b => by simpa using le_total (a.rank metric) (b.rank metric)) cs
  simpa only [decide_eq_true_eq] using h

/-- A label has one distance: candidates with the same label are the same. -/
def Consistent (cs : List Candidate) : Prop := ∀ a ∈ cs, ∀ b ∈ cs, a.label = b.label → a = b

instance (cs : List Candidate) : Decidable (Consistent cs) :=
  inferInstanceAs (Decidable (∀ a ∈ cs, ∀ b ∈ cs, a.label = b.label → a = b))

theorem Consistent.of_nodup {cs : List Candidate} (hd : (cs.map label).Nodup) : Consistent cs :=
  fun _ ha _ hb => List.inj_on_of_nodup_map hd ha hb

/-- Candidates whose labels have one distance each have one order only. -/
theorem eq_bestFirst {metric : Metric} {l cs : List Candidate} (hp : l.Perm cs)
    (hs : l.Pairwise fun a b => a.rank metric ≤ b.rank metric) (hd : Consistent cs) :
    l = bestFirst metric cs := by
  refine List.Perm.eq_of_pairwise (fun a b ha hb hab hba => ?_) hs (bestFirst_pairwise metric cs)
    (hp.trans (bestFirst_perm metric cs).symm)
  have hrank : a.rank metric = b.rank metric := le_antisymm hab hba
  have hlabel : a.label = b.label := congrArg (fun r => (ofLex r).2) hrank
  exact hd a (hp.mem_iff.1 ha) b ((bestFirst_perm metric cs).mem_iff.1 hb) hlabel

end Candidate

namespace TopK

/-! ## What is kept and what is dropped -/

/-- What the collector lets go when it is offered `c`. -/
def dropped (t : TopK) (c : Candidate) : List Candidate :=
  if ¬c.isLabelled ∨ t.kept.size < t.capacity then []
  else match t.kept[0]? with
    | some root => if Candidate.ranksAfter t.metric root c then [root] else [c]
    | none => [c]

/-- What the collector lets go when it is offered candidates one by one. -/
def droppedOf (t : TopK) : List Candidate → List Candidate
  | [] => []
  | c :: cs => t.dropped c ++ (t.push c).droppedOf cs

@[simp] theorem push_metric (t : TopK) (c : Candidate) : (t.push c).metric = t.metric := by
  simp only [push]
  split
  · rfl
  · split
    · rfl
    · split
      · split <;> rfl
      · rfl

@[simp] theorem push_capacity (t : TopK) (c : Candidate) : (t.push c).capacity = t.capacity := by
  simp only [push]
  split
  · rfl
  · split
    · rfl
    · split
      · split <;> rfl
      · rfl

@[simp] theorem extend_metric (t : TopK) (cs : List Candidate) :
    (t.extend cs).metric = t.metric := by
  induction cs generalizing t with
  | nil => rfl
  | cons c cs ih => exact (ih (t.push c)).trans (push_metric t c)

@[simp] theorem extend_capacity (t : TopK) (cs : List Candidate) :
    (t.extend cs).capacity = t.capacity := by
  induction cs generalizing t with
  | nil => rfl
  | cons c cs ih => exact (ih (t.push c)).trans (push_capacity t c)

theorem size_lt_push (t : TopK) (c : Candidate) : t.kept.size < (t.kept.push c).size := by simp

/-- All that an offer can do. -/
theorem push_cases (t : TopK) (c : Candidate) :
    (¬c.isLabelled ∧ t.push c = t ∧ t.dropped c = []) ∨
    (c.isLabelled ∧ t.kept.size < t.capacity ∧ t.dropped c = [] ∧
      (t.push c).kept = (Heap.siftUp (Candidate.ranksAfter t.metric) (t.kept.push c).toVector
        t.kept.size (t.size_lt_push c)).toArray) ∨
    (c.isLabelled ∧ t.kept.size = t.capacity ∧ ∃ h : 0 < t.kept.size,
      Candidate.ranksAfter t.metric t.kept[0] c ∧ t.dropped c = [t.kept[0]] ∧
      (t.push c).kept = (Heap.siftDown (Candidate.ranksAfter t.metric) (t.kept.toVector.set 0 c)
        0 t.kept.size (Nat.le_refl _)).toArray) ∨
    (c.isLabelled ∧ t.kept.size = t.capacity ∧ t.push c = t ∧ t.dropped c = [c] ∧
      ∀ h : 0 < t.kept.size, ¬Candidate.ranksAfter t.metric t.kept[0] c) := by
  have hfull := t.size_le
  by_cases hl : c.label = noLabel
  · left
    simp [push, dropped, Candidate.isLabelled, hl]
  · right
    by_cases hroom : t.kept.size < t.capacity
    · left
      simp [push, dropped, Candidate.isLabelled, hl, hroom]
    · right
      by_cases hpos : 0 < t.kept.size
      · by_cases hafter : Candidate.ranksAfter t.metric t.kept[0] c
        · left
          refine ⟨by simpa [Candidate.isLabelled] using hl, by omega, hpos, hafter, ?_, ?_⟩
          · simp [dropped, Candidate.isLabelled, hl, hroom, hpos, hafter]
          · simp [push, hl, hroom, hpos, hafter]
        · right
          refine ⟨by simpa [Candidate.isLabelled] using hl, by omega, ?_, ?_, fun _ => hafter⟩
          · simp [push, hl, hroom, hpos, hafter]
          · simp [dropped, Candidate.isLabelled, hl, hroom, hpos, hafter]
      · right
        refine ⟨by simpa [Candidate.isLabelled] using hl, by omega, ?_, ?_, fun h => absurd h hpos⟩
        · simp [push, hl, hroom, hpos]
        · simp [dropped, Candidate.isLabelled, hl, hroom, hpos]

theorem push_perm (t : TopK) (c : Candidate) :
    ((t.push c).kept.toList ++ t.dropped c).Perm
      (t.kept.toList ++ [c].filter Candidate.isLabelled) := by
  rcases push_cases t c with ⟨hl, hp, hd⟩ | ⟨hl, -, hd, hk⟩ | ⟨hl, -, hpos, -, hd, hk⟩ |
    ⟨hl, -, hp, hd, -⟩
  · rw [hp, hd, List.filter_cons_of_neg hl, List.filter_nil]
  · have hsift := (Heap.siftUp_perm (Candidate.ranksAfter t.metric)
      (t.kept.push c).toVector t.kept.size (t.size_lt_push c)).toList
    rw [hk, hd, List.filter_cons_of_pos hl, List.filter_nil, List.append_nil]
    exact hsift.trans (by simp)
  · have hsift := (Heap.siftDown_perm (Candidate.ranksAfter t.metric)
      (t.kept.toVector.set 0 c) 0 t.kept.size (Nat.le_refl _)).toList
    have hset : (t.kept.toList.set 0 c ++ [t.kept[0]]).Perm (t.kept.toList ++ [c]) := by
      obtain ⟨root, rest, hcons⟩ : ∃ root rest, t.kept.toList = root :: rest :=
        List.exists_cons_of_length_pos (by simpa using hpos)
      have hroot : t.kept[0] = root := by simp [← Array.getElem_toList, hcons]
      rw [hcons, hroot, List.set_cons_zero]
      exact (List.perm_append_singleton root (c :: rest)).trans
        ((List.perm_append_singleton c rest).symm.cons root)
    rw [hk, hd, List.filter_cons_of_pos hl, List.filter_nil]
    exact List.Perm.trans (List.Perm.append_right _ (hsift.trans (by simp))) hset
  · rw [hp, hd, List.filter_cons_of_pos hl, List.filter_nil]

theorem extend_perm (t : TopK) (cs : List Candidate) :
    ((t.extend cs).kept.toList ++ t.droppedOf cs).Perm
      (t.kept.toList ++ cs.filter Candidate.isLabelled) := by
  induction cs generalizing t with
  | nil => exact .refl _
  | cons c cs ih =>
    have hfilter : (c :: cs).filter Candidate.isLabelled =
        [c].filter Candidate.isLabelled ++ cs.filter Candidate.isLabelled := by
      rw [← List.filter_append, List.singleton_append]
    rw [hfilter, List.perm_iff_count]
    intro a
    have hhead := (push_perm t c).count_eq a
    have htail := (ih (t.push c)).count_eq a
    simp only [extend, droppedOf, List.foldl_cons, List.count_append] at hhead htail ⊢
    omega

theorem size_push (t : TopK) (c : Candidate) :
    (t.push c).size = if c.isLabelled then min t.capacity (t.size + 1) else t.size := by
  have hle := t.size_le
  rcases push_cases t c with ⟨hl, hp, -⟩ | ⟨hl, hroom, -, hk⟩ | ⟨hl, hfull, hpos, -, -, hk⟩ |
    ⟨hl, hfull, hp, -, -⟩
  · rw [hp, if_neg hl]
  · rw [if_pos hl, size, hk]; simp [size]; omega
  · rw [if_pos hl, size, hk]; simp [size]; omega
  · rw [if_pos hl, hp, size]; omega

theorem size_extend (t : TopK) (cs : List Candidate) :
    (t.extend cs).size = min t.capacity (t.size + (cs.filter Candidate.isLabelled).length) := by
  induction cs generalizing t with
  | nil => have := t.size_le; simp [extend, size]; omega
  | cons c cs ih =>
    show ((t.push c).extend cs).size = _
    rw [ih, push_capacity, size_push, List.filter_cons]
    split
    · simp only [List.length_cons]; omega
    · rfl

/-! ## Without NaN -/

/-- The collector holds numbers in a heap, the worst at the root, and all of them rank ahead of
`rest`; it has let go of something only if it is full. -/
structure Leads (t : TopK) (rest : List Candidate) : Prop where
  numbers : ∀ c ∈ t.kept, c.IsNumber
  heap : ∀ i (h : i < t.kept.size), t.kept[i].rank t.metric ≤ t.kept[(i - 1) / 2].rank t.metric
  full : rest ≠ [] → t.kept.size = t.capacity
  ahead : ∀ a ∈ t.kept, ∀ b ∈ rest, a.rank t.metric ≤ b.rank t.metric

theorem Leads.empty (metric : Metric) (capacity : Nat) : Leads (empty metric capacity) [] where
  numbers := by simp [TopK.empty]
  heap := by simp [TopK.empty]
  full h := absurd rfl h
  ahead := by simp

theorem Leads.isHeap {t : TopK} {rest : List Candidate} (l : Leads t rest) :
    Heap.IsHeap (Candidate.rank t.metric) t.kept.toVector t.kept.size (Nat.le_refl _) := by
  intro i hi
  simpa using l.heap i hi

theorem Leads.le_root {t : TopK} {rest : List Candidate} (l : Leads t rest) (hpos : 0 < t.kept.size)
    {a : Candidate} (ha : a ∈ t.kept) : a.rank t.metric ≤ t.kept[0].rank t.metric := by
  obtain ⟨i, hi, rfl⟩ := Array.mem_iff_getElem.1 ha
  simpa using l.isHeap.le_root i hi

theorem Leads.of_vector {t : TopK} {rest : List Candidate} {n : Nat} {v : Vector Candidate n}
    (hk : t.kept = v.toArray) (hnumbers : ∀ c ∈ v, c.IsNumber)
    (hheap : Heap.IsHeap (Candidate.rank t.metric) v n (Nat.le_refl _))
    (hfull : rest ≠ [] → n = t.capacity)
    (hahead : ∀ a ∈ v, ∀ b ∈ rest, a.rank t.metric ≤ b.rank t.metric) : Leads t rest where
  numbers c hc := hnumbers c (by simpa [hk] using hc)
  heap i hi := by
    simp only [hk, Vector.getElem_toArray]
    exact hheap i (by simpa [hk] using hi)
  full h := by simpa [hk] using hfull h
  ahead a ha := hahead a (by simpa [hk] using ha)

theorem Leads.push_room {t : TopK} (l : Leads t []) {c : Candidate} (hc : c.IsNumber)
    (hk : (t.push c).kept = (Heap.siftUp (Candidate.ranksAfter t.metric)
      (t.kept.push c).toVector t.kept.size (t.size_lt_push c)).toArray) : Leads (t.push c) [] := by
  have hnumbers : ∀ a ∈ (t.kept.push c).toVector, a.IsNumber := by
    intro a ha
    rcases Array.mem_push.1 (by simpa using ha) with ha | rfl
    · exact l.numbers a ha
    · exact hc
  refine .of_vector hk (fun a ha => hnumbers a ((Heap.siftUp_perm ..).mem_iff.1 ha)) ?_
    (fun h => absurd rfl h) (fun _ _ _ hb => absurd hb List.not_mem_nil)
  rw [push_metric]
  refine Heap.siftUp_isHeap (Candidate.ranksAfter_ranks t.metric) _ hnumbers ⟨?_, ?_⟩
  · intro j hj hp hne
    have hlt : j < t.kept.size := by simp at hj; omega
    have hparent : (j - 1) / 2 < t.kept.size := by omega
    simpa [Array.getElem_push, hlt, hparent] using l.heap j hlt
  · intro j hj hi hp hpos
    simp at hj
    omega

/-- A candidate ahead of the root of a full collector takes its place and is sifted down. -/
theorem Leads.push_replace {t : TopK} {rest : List Candidate} (l : Leads t rest) {c : Candidate}
    (hc : c.IsNumber) (hfull : t.kept.size = t.capacity) (hpos : 0 < t.kept.size)
    (hafter : Candidate.ranksAfter t.metric t.kept[0] c)
    (hk : (t.push c).kept = (Heap.siftDown (Candidate.ranksAfter t.metric)
      (t.kept.toVector.set 0 c) 0 t.kept.size (Nat.le_refl _)).toArray) :
    Leads (t.push c) (rest ++ [t.kept[0]]) := by
  have hmem : ∀ a ∈ t.kept.toVector.set 0 c, a = c ∨ a ∈ t.kept := by
    intro a ha
    rcases Vector.mem_or_eq_of_mem_set ha with ha | rfl
    · exact .inr (by simpa using ha)
    · exact .inl rfl
  have hroot : t.kept[0].IsNumber := l.numbers _ (Array.getElem_mem hpos)
  have hlt : c.rank t.metric < t.kept[0].rank t.metric :=
    (Candidate.ranksAfter_ranks t.metric hroot hc).1 hafter
  have hnumbers : ∀ a ∈ t.kept.toVector.set 0 c, a.IsNumber := by
    intro a ha
    rcases hmem a ha with rfl | ha
    · exact hc
    · exact l.numbers a ha
  refine .of_vector hk (fun a ha => hnumbers a ((Heap.siftDown_perm ..).mem_iff.1 ha)) ?_
    (fun _ => by simpa using hfull) ?_
  · rw [push_metric]
    refine Heap.siftDown_isHeap (Candidate.ranksAfter_ranks t.metric) hnumbers ⟨?_, ?_⟩
    · intro j hj hp
      have hle := l.heap j hj
      rw [Vector.getElem_set_ne _ _ (by omega), Vector.getElem_set_ne _ _ (by omega)]
      simpa using hle
    · intro j hj hp hi
      exact absurd rfl hi
  · intro a ha b hb
    rw [push_metric]
    have haroot : a.rank t.metric ≤ t.kept[0].rank t.metric := by
      rcases hmem a ((Heap.siftDown_perm ..).mem_iff.1 ha) with rfl | ha
      · exact le_of_lt hlt
      · exact l.le_root hpos ha
    rcases List.mem_append.1 hb with hb | hb
    · exact haroot.trans (l.ahead _ (Array.getElem_mem hpos) b hb)
    · rw [List.mem_singleton.1 hb]
      exact haroot

theorem Leads.push_drop {t : TopK} {rest : List Candidate} (l : Leads t rest) {c : Candidate}
    (hc : c.IsNumber) (hfull : t.kept.size = t.capacity)
    (hafter : ∀ h : 0 < t.kept.size, ¬Candidate.ranksAfter t.metric t.kept[0] c) :
    Leads t (rest ++ [c]) where
  numbers := l.numbers
  heap := l.heap
  full _ := hfull
  ahead a ha b hb := by
    rcases List.mem_append.1 hb with hb | hb
    · exact l.ahead a ha b hb
    · have hpos : 0 < t.kept.size := Array.size_pos_of_mem ha
      have hroot : t.kept[0].rank t.metric ≤ c.rank t.metric :=
        (Candidate.ranksAfter_ranks t.metric).le_of_not_after
          (l.numbers _ (Array.getElem_mem hpos)) hc (hafter hpos)
      rw [List.mem_singleton.1 hb]
      exact (l.le_root hpos ha).trans hroot

theorem Leads.push {t : TopK} {rest : List Candidate} (l : Leads t rest) {c : Candidate}
    (hc : c.IsNumber) : Leads (t.push c) (rest ++ t.dropped c) := by
  rcases push_cases t c with ⟨-, hp, hd⟩ | ⟨-, hroom, hd, hk⟩ | ⟨-, hfull, hpos, hafter, hd, hk⟩ |
    ⟨-, hfull, hp, hd, hafter⟩
  · rwa [hp, hd, List.append_nil]
  · have hrest : rest = [] := by
      by_contra hne
      have := l.full hne
      omega
    subst hrest
    rw [hd]
    exact l.push_room hc hk
  · rw [hd]
    exact l.push_replace hc hfull hpos hafter hk
  · rw [hp, hd]
    exact l.push_drop hc hfull hafter

theorem Leads.extend {t : TopK} {rest : List Candidate} (l : Leads t rest) {cs : List Candidate}
    (hcs : ∀ c ∈ cs, c.IsNumber) : Leads (t.extend cs) (rest ++ t.droppedOf cs) := by
  induction cs generalizing t rest with
  | nil => simpa [droppedOf, TopK.extend] using l
  | cons c cs ih =>
    have hpush := l.push (hcs c List.mem_cons_self)
    have htail := ih hpush fun a ha => hcs a (List.mem_cons_of_mem _ ha)
    rwa [List.append_assoc] at htail

/-! ## The finished row -/

theorem sorted_perm (t : TopK) : t.sorted.Perm t.kept.toList := by
  simpa [sorted] using (Heap.sort_perm (Candidate.ranksAfter t.metric) t.kept.toVector
    t.kept.size (Nat.le_refl _)).toList

@[simp] theorem length_sorted (t : TopK) : t.sorted.length = t.size := by
  simpa [size] using t.sorted_perm.length_eq

@[simp] theorem length_finish (t : TopK) : t.finish.length = t.capacity := by
  have := t.size_le
  simp [finish, size] at *
  omega

theorem length_finish_ofCandidates (metric : Metric) (k : Nat) (cs : List Candidate) :
    (ofCandidates metric k cs).finish.length = k := by
  simp [ofCandidates, empty]

theorem Leads.sorted_pairwise {t : TopK} {rest : List Candidate} (l : Leads t rest) :
    t.sorted.Pairwise fun a b => a.rank t.metric ≤ b.rank t.metric :=
  Heap.sort_ascending (Candidate.ranksAfter_ranks t.metric)
    (fun a ha => l.numbers a (by simpa using ha)) l.isHeap

/-- What the collector holds, sorted, is the beginning of all it was offered, sorted. -/
theorem Leads.sorted_eq_take {t : TopK} {rest cs : List Candidate} (l : Leads t rest)
    (hp : (t.kept.toList ++ rest).Perm cs) (hd : Candidate.Consistent cs) :
    t.sorted = (Candidate.bestFirst t.metric cs).take t.capacity := by
  have hall : t.sorted ++ Candidate.bestFirst t.metric rest = Candidate.bestFirst t.metric cs := by
    refine Candidate.eq_bestFirst ?_ ?_ hd
    · exact (t.sorted_perm.append (Candidate.bestFirst_perm t.metric rest)).trans hp
    · refine List.pairwise_append.2 ⟨l.sorted_pairwise, Candidate.bestFirst_pairwise _ _, ?_⟩
      intro a ha b hb
      exact l.ahead a (Array.mem_toList_iff.1 (t.sorted_perm.mem_iff.1 ha)) b
        ((Candidate.bestFirst_perm _ _).mem_iff.1 hb)
  rw [← hall]
  by_cases hrest : rest = []
  · subst hrest
    have hle : t.sorted.length ≤ t.capacity := by rw [length_sorted]; exact t.size_le
    simp [Candidate.bestFirst, List.take_of_length_le hle]
  · have hlen : t.sorted.length = t.capacity := by rw [length_sorted]; exact l.full hrest
    rw [List.take_append_of_le_length (Nat.le_of_eq hlen.symm),
      List.take_of_length_le (Nat.le_of_eq hlen)]

/-- A row of numbers is the beginning of the sorted candidates, and then padding. -/
theorem finish_ofCandidates (metric : Metric) (k : Nat) {cs : List Candidate}
    (hn : ∀ c ∈ cs, c.IsNumber)
    (hd : Candidate.Consistent (cs.filter Candidate.isLabelled)) :
    (ofCandidates metric k cs).finish =
      (Candidate.bestFirst metric (cs.filter Candidate.isLabelled)).take k ++
        List.replicate (k - (cs.filter Candidate.isLabelled).length) .padding := by
  have hleads := (Leads.empty metric k).extend hn
  have hperm := extend_perm (empty metric k) cs
  have hsorted := hleads.sorted_eq_take (by simpa [empty] using hperm) hd
  have hsize := size_extend (empty metric k) cs
  simp only [extend_metric, extend_capacity] at hsorted
  rw [finish, ofCandidates, hsorted, hsize, extend_capacity]
  simp only [empty, size, List.size_toArray, List.length_nil, Nat.zero_add]
  congr 2
  omega

end TopK

end Neighbors
