import Neighbors.Proofs.Binary32.Difference
import Neighbors.Proofs.TopK

/-!
# A collector after every offer

`TopK.Offered metric k t offered gone`: the collector `t` of `k` slots has been offered `offered`,
one by one or in batches, and has let go of `gone`. What it holds is a heap with the worst at the
root, ahead of all that is gone, and the distance to beat only gets better (`Offered.holds_best`).
-/

namespace Neighbors

theorem Metric.rank_le_worst (metric : Metric) {distance : Binary32}
    (h : ¬distance.isNaN = true) : metric.rank distance ≤ metric.rank metric.worst := by
  have hkey := Binary32.key_le_infinityWord h
  cases metric with
  | l2 => exact hkey.2
  | innerProduct =>
    show -distance.key ≤ -Binary32.negInfinity.key
    have hworst : Binary32.negInfinity.key = -(Binary32.infinityWord : Int) := by decide
    omega

theorem Metric.not_isNaN_worst (metric : Metric) : ¬metric.worst.isNaN = true := by
  cases metric <;> decide

theorem Metric.not_isBetter (metric : Metric) {a b : Binary32} (ha : ¬a.isNaN = true)
    (hb : ¬b.isNaN = true) (h : metric.rank b ≤ metric.rank a) : ¬metric.isBetter a b = true := by
  rw [metric.isBetter_iff ha hb]
  exact Int.not_lt.2 h

theorem Candidate.not_ranksAfter {metric : Metric} {a b : Candidate} (ha : a.IsNumber)
    (hb : b.IsNumber) (h : a.rank metric ≤ b.rank metric) : ¬ranksAfter metric a b = true := by
  rw [ranksAfter_ranks metric ha hb]
  exact not_lt.2 h

theorem Candidate.rank_distance_le {metric : Metric} {a b : Candidate}
    (h : a.rank metric ≤ b.rank metric) : metric.rank a.distance ≤ metric.rank b.distance := by
  rcases (rank_le_iff metric a b).1 h with hlt | ⟨heq, -⟩
  · exact Int.le_of_lt hlt
  · exact Int.le_of_eq heq

namespace TopK

/-! ## The distance to beat -/

/-- The distance to beat is a number, the worst one while there is room. -/
structure Threshold (t : TopK) (distance : Binary32) : Prop where
  threshold? : t.threshold? = some distance
  isNumber : ¬distance.isNaN = true
  kept_le : ∀ a ∈ t.kept, t.metric.rank a.distance ≤ t.metric.rank distance
  of_room : t.size < t.capacity → distance = t.metric.worst
  of_full : t.size = t.capacity → ∃ a ∈ t.kept, a.distance = distance

theorem Leads.exists_threshold {t : TopK} {rest : List Candidate} (l : Leads t rest)
    (hk : 0 < t.capacity) : ∃ distance, t.Threshold distance := by
  by_cases hroom : t.size < t.capacity
  · refine ⟨t.metric.worst, if_pos hroom, t.metric.not_isNaN_worst,
      fun a ha => t.metric.rank_le_worst (l.numbers a ha), fun _ => rfl, fun hfull => ?_⟩
    omega
  · have hpos : 0 < t.kept.size := by
      have := t.size_le
      unfold size at hroom
      omega
    have hroot : t.kept[0] ∈ t.kept := Array.getElem_mem hpos
    refine ⟨t.kept[0].distance, ?_, l.numbers _ hroot, fun a ha => ?_, fun h => absurd h hroom,
      fun _ => ⟨_, hroot, rfl⟩⟩
    · rw [TopK.threshold?, if_neg hroom, Array.getElem?_eq_getElem hpos, Option.map_some]
    · exact Candidate.rank_distance_le (l.le_root hpos ha)

/-- Nothing that is kept was offered worse than the distance to beat. -/
theorem Threshold.rank_push_le {t : TopK} {rest : List Candidate} (l : Leads t rest)
    {c : Candidate} (hc : c.IsNumber) {before after : Binary32} (hbefore : t.Threshold before)
    (hafter : (t.push c).Threshold after) : t.metric.rank after ≤ t.metric.rank before := by
  by_cases hroom : t.size < t.capacity
  · rw [hbefore.of_room hroom]
    exact t.metric.rank_le_worst hafter.isNumber
  · have hfull : t.size = t.capacity := Nat.le_antisymm t.size_le (Nat.not_lt.1 hroom)
    rcases push_cases t c with ⟨-, hp, -⟩ | ⟨-, hlt, -, -⟩ | ⟨hl, -, hpos, hbehind, -, hk⟩ |
      ⟨-, -, hp, -, -⟩
    · rw [hp] at hafter
      rw [Option.some.inj (hafter.threshold?.symm.trans hbefore.threshold?)]
    · exact absurd hlt hroom
    · have hsize : (t.push c).size = (t.push c).capacity := by
        rw [size_push, if_pos hl, push_capacity]
        omega
      obtain ⟨a, ha, rfl⟩ := hafter.of_full hsize
      -- The new root is the candidate that beat the old one, or was kept before.
      rw [hk] at ha
      have hmem := (Heap.siftDown_perm ..).mem_iff.1 ((Vector.mem_toArray_iff _ _).1 ha)
      rcases Vector.mem_or_eq_of_mem_set hmem with ha | rfl
      · exact hbefore.kept_le a (by simpa using ha)
      · have hroot := Array.getElem_mem hpos
        have hlt := (Candidate.ranksAfter_ranks t.metric (l.numbers _ hroot) hc).1 hbehind
        exact (Candidate.rank_distance_le (le_of_lt hlt)).trans (hbefore.kept_le _ hroot)
    · rw [hp] at hafter
      rw [Option.some.inj (hafter.threshold?.symm.trans hbefore.threshold?)]

/-- Further offers never make the distance to beat worse. -/
theorem Threshold.rank_extend_le {t : TopK} {rest : List Candidate} (l : Leads t rest)
    (hk : 0 < t.capacity) {cs : List Candidate} (hcs : ∀ c ∈ cs, c.IsNumber)
    {before after : Binary32} (hbefore : t.Threshold before)
    (hafter : (t.extend cs).Threshold after) : t.metric.rank after ≤ t.metric.rank before := by
  induction cs generalizing t rest before with
  | nil => rw [Option.some.inj (hafter.threshold?.symm.trans hbefore.threshold?)]
  | cons c cs ih =>
    have hc := hcs c List.mem_cons_self
    have hk' : 0 < (t.push c).capacity := by rwa [push_capacity]
    have lpush := l.push hc
    obtain ⟨between, hbetween⟩ := lpush.exists_threshold hk'
    have hstep := hbefore.rank_push_le l hc hbetween
    have hrest := ih lpush hk' (fun a ha => hcs a (List.mem_cons_of_mem c ha)) hbetween hafter
    rw [push_metric] at hrest
    exact hrest.trans hstep

/-! ## Offers one after the other -/

/-- The collector has been offered `offered` and has let go of `gone`. -/
inductive Offered (metric : Metric) (k : Nat) :
    TopK → (offered gone : List Candidate) → Prop where
  | empty : Offered metric k (.empty metric k) [] []
  | ofCandidates (cs : List Candidate) :
      Offered metric k (.ofCandidates metric k cs) cs ((TopK.empty metric k).droppedOf cs)
  | push {t : TopK} {offered gone : List Candidate} (c : Candidate) :
      Offered metric k t offered gone →
      Offered metric k (t.push c) (offered ++ [c]) (gone ++ t.dropped c)
  | extend {t : TopK} {offered gone : List Candidate} (cs : List Candidate) :
      Offered metric k t offered gone →
      Offered metric k (t.extend cs) (offered ++ cs) (gone ++ t.droppedOf cs)

theorem extend_append (t : TopK) (cs ds : List Candidate) :
    t.extend (cs ++ ds) = (t.extend cs).extend ds := List.foldl_append

theorem droppedOf_append (t : TopK) (cs ds : List Candidate) :
    t.droppedOf (cs ++ ds) = t.droppedOf cs ++ (t.extend cs).droppedOf ds := by
  induction cs generalizing t with
  | nil => rfl
  | cons c cs ih =>
    show t.dropped c ++ (t.push c).droppedOf (cs ++ ds) = _
    rw [ih, ← List.append_assoc]
    rfl

variable {metric : Metric} {k : Nat} {t : TopK} {offered gone : List Candidate}

/-- How the candidates were divided into offers does not matter. -/
theorem Offered.eq_extend (h : Offered metric k t offered gone) :
    t = (TopK.empty metric k).extend offered ∧
      gone = (TopK.empty metric k).droppedOf offered := by
  induction h with
  | empty => exact ⟨rfl, rfl⟩
  | ofCandidates cs => exact ⟨rfl, rfl⟩
  | push c _ ih =>
    obtain ⟨rfl, rfl⟩ := ih
    rw [extend_append, droppedOf_append]
    exact ⟨rfl, by simp [droppedOf]⟩
  | extend cs _ ih =>
    obtain ⟨rfl, rfl⟩ := ih
    exact ⟨(extend_append ..).symm, (droppedOf_append ..).symm⟩

theorem Offered.perm (h : Offered metric k t offered gone) :
    (t.kept.toList ++ gone).Perm (offered.filter Candidate.isLabelled) := by
  obtain ⟨rfl, rfl⟩ := h.eq_extend
  simpa [TopK.empty] using extend_perm (TopK.empty metric k) offered

theorem Offered.leads (h : Offered metric k t offered gone) (hn : ∀ c ∈ offered, c.IsNumber) :
    Leads t gone := by
  obtain ⟨rfl, rfl⟩ := h.eq_extend
  simpa using (Leads.empty metric k).extend hn

theorem Offered.isNumber_gone (h : Offered metric k t offered gone)
    (hn : ∀ c ∈ offered, c.IsNumber) {c : Candidate} (hc : c ∈ gone) : c.IsNumber :=
  hn c (List.mem_of_mem_filter (h.perm.mem_iff.1 (List.mem_append_right _ hc)))

/-- Whatever numbers a collector has been offered, in whatever offers: it is as full as it can be,
and what it keeps and what is gone are the labelled candidates. No slot ranks after its parent, so
the root is ahead of nothing kept, and nothing that is gone is ahead of anything kept. If there is a
slot at all, the distance to beat is the worst one while there is room and then the worst one kept,
and further offers never make it worse. -/
theorem Offered.holds_best (h : Offered metric k t offered gone)
    (hn : ∀ c ∈ offered, c.IsNumber) :
    t.size = min k (offered.filter Candidate.isLabelled).length ∧
    (t.kept.toList ++ gone).Perm (offered.filter Candidate.isLabelled) ∧
    (∀ i parent (hi : i < t.kept.size) (hp : parent < t.kept.size), parent = (i - 1) / 2 →
      ¬Candidate.ranksAfter metric t.kept[i] t.kept[parent] = true) ∧
    (∀ (hpos : 0 < t.kept.size), ∀ a ∈ t.kept,
      ¬Candidate.ranksAfter metric a t.kept[0] = true) ∧
    (∀ a ∈ t.kept, ∀ b ∈ gone, ¬Candidate.ranksAfter metric a b = true) ∧
    (0 < k → ∃ distance, t.threshold? = some distance ∧
      (t.size < k → distance = metric.worst) ∧
      (t.size = k → (∃ a ∈ t.kept, a.distance = distance) ∧
        ∀ a ∈ t.kept, ¬metric.isBetter distance a.distance = true) ∧
      ∀ cs : List Candidate, (∀ c ∈ cs, c.IsNumber) →
        ∃ distance', (t.extend cs).threshold? = some distance' ∧
          ¬metric.isBetter distance distance' = true) := by
  have hleads := h.leads hn
  obtain ⟨heq, -⟩ := h.eq_extend
  have hmetric : t.metric = metric := by rw [heq, extend_metric]; rfl
  have hcapacity : t.capacity = k := by rw [heq, extend_capacity]; rfl
  subst hmetric hcapacity
  refine ⟨?_, h.perm, fun i parent hi hp hparent => ?_, fun hpos a ha => ?_,
    fun a ha b hb => ?_, fun hk => ?_⟩
  · have hsize := size_extend (TopK.empty t.metric t.capacity) offered
    rw [← heq] at hsize
    simpa [TopK.empty, size] using hsize
  · subst hparent
    exact Candidate.not_ranksAfter (hleads.numbers _ (Array.getElem_mem hi))
      (hleads.numbers _ (Array.getElem_mem hp)) (hleads.heap i hi)
  · exact Candidate.not_ranksAfter (hleads.numbers a ha) (hleads.numbers _ (Array.getElem_mem hpos))
      (hleads.le_root hpos ha)
  · exact Candidate.not_ranksAfter (hleads.numbers a ha) (h.isNumber_gone hn hb)
      (hleads.ahead a ha b hb)
  · obtain ⟨distance, hthreshold⟩ := hleads.exists_threshold hk
    refine ⟨distance, hthreshold.threshold?, hthreshold.of_room, fun hfull =>
      ⟨hthreshold.of_full hfull, fun a ha => ?_⟩, fun cs hcs => ?_⟩
    · exact t.metric.not_isBetter hthreshold.isNumber (hleads.numbers a ha)
        (hthreshold.kept_le a ha)
    · have hk' : 0 < (t.extend cs).capacity := by rwa [extend_capacity]
      obtain ⟨distance', hthreshold'⟩ := (hleads.extend hcs).exists_threshold hk'
      refine ⟨distance', hthreshold'.threshold?, ?_⟩
      exact t.metric.not_isBetter hthreshold.isNumber hthreshold'.isNumber
        (hthreshold.rank_extend_le hleads hk hcs hthreshold')

/-- Three zeros for two slots: they tie, so the largest label goes, and the unlabelled one is never
kept. -/
theorem Offered.holds_best_tied :
    let t := (((TopK.empty .innerProduct 2).push ⟨.zero, 4⟩).extend
      [⟨.infinity, noLabel⟩, ⟨.negZero, 3⟩]).push ⟨.zero, 3⟩
    let gone : List Candidate := [⟨.zero, 4⟩]
    Offered .innerProduct 2 t [⟨.zero, 4⟩, ⟨.infinity, noLabel⟩, ⟨.negZero, 3⟩, ⟨.zero, 3⟩] gone ∧
      t.size = 2 ∧
      (t.kept.toList ++ gone).Perm [⟨.zero, 4⟩, ⟨.negZero, 3⟩, ⟨.zero, 3⟩] ∧
      t.threshold?.isSome = true := by
  intro t gone
  have hgone : [] ++ (TopK.empty .innerProduct 2).dropped ⟨.zero, 4⟩ ++
      ((TopK.empty .innerProduct 2).push ⟨.zero, 4⟩).droppedOf
        [⟨.infinity, noLabel⟩, ⟨.negZero, 3⟩] ++
      (((TopK.empty .innerProduct 2).push ⟨.zero, 4⟩).extend
        [⟨.infinity, noLabel⟩, ⟨.negZero, 3⟩]).dropped ⟨.zero, 3⟩ = gone := by
    decide +kernel
  have h : Offered .innerProduct 2 t
      [⟨.zero, 4⟩, ⟨.infinity, noLabel⟩, ⟨.negZero, 3⟩, ⟨.zero, 3⟩] gone :=
    hgone ▸ .push _ (.extend _ (.push _ .empty))
  obtain ⟨hsize, hperm, -, -, -, hthreshold⟩ := Offered.holds_best h (by decide +kernel)
  obtain ⟨distance, hdistance, -⟩ := hthreshold (by decide)
  exact ⟨h, hsize, hperm, by rw [hdistance]; rfl⟩

end TopK

end Neighbors
