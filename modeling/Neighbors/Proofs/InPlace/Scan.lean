import Neighbors.Proofs.Compaction
import Neighbors.Proofs.Filled
import Neighbors.Proofs.InPlace.Heap

/-!
# Scans in the slots of the caller

The scans cut queries, stored vectors and slots into pieces and read and write those. Where the
lengths are those of whole rows, no step leaves a buffer and the slots end up as the scan of
`Neighbors.Scan` has them, whatever they held before.
-/

namespace Neighbors

/-- A label as an unsigned 64-bit number. -/
def Label.unsigned (l : Label) : Nat :=
  if l < 0 then (l + 0x10000000000000000).toNat else l.toNat

theorem Label.unsigned_of_isStored {l : Int} {n : Nat} (h : Label.isStored l n = true) :
    Label.unsigned l = l.toNat ∧ l.toNat + 1 ≤ n := by
  obtain ⟨hlow, hhigh⟩ := Label.isStored_iff.1 h
  change (0 : Int) ≤ l at hlow
  change l < (n : Int) at hhigh
  exact ⟨if_neg (Int.not_lt.2 hlow), by omega⟩

namespace Slots

def slice? (s : Slots) (start stop : Nat) : Option Slots := do
  return ⟨← Buffer.slice? s.distances start stop, ← Buffer.slice? s.labels start stop⟩

theorem slice?_eq_some {s : Slots} {n start stop : Nat} (hs : s.HasSize n) (h : start ≤ stop)
    (hstop : stop ≤ n) : s.slice? start stop =
      some ⟨s.distances.extract start stop, s.labels.extract start stop⟩ := by
  rw [slice?, Buffer.slice?_eq_some h (hs.distances.symm ▸ hstop),
    Buffer.slice?_eq_some h (hs.labels.symm ▸ hstop)]
  rfl

theorem ofCandidates_candidates {s : Slots} {n : Nat} (hs : s.HasSize n) :
    ofCandidates s.candidates = s := by
  have hdistances : s.candidates.map Candidate.distance = s.distances.toList :=
    List.ext_getElem (by simp [candidates, hs.distances, hs.labels]) (by simp [candidates])
  have hlabels : s.candidates.map Candidate.label = s.labels.toList :=
    List.ext_getElem (by simp [candidates, hs.distances, hs.labels]) (by simp [candidates])
  rw [ofCandidates, hdistances, hlabels, Array.toArray_toList, Array.toArray_toList]

end Slots

namespace Scan

variable {metric : Metric} {queries base shift : Floats} {d k nq n : Nat} {radius : Binary32}

/-- A stored vector with its position, as a candidate for `q`. -/
def candidate? (score? : Floats → Floats → Nat → Option Binary32) (q : Floats)
    (stored : Floats × Nat) : Option Candidate := do
  return ⟨← score? q stored.1 stored.2, stored.2⟩

def best? (metric : Metric) (queries base : Floats) (d k : Nat)
    (score? : Floats → Floats → Nat → Option Binary32) (out : Slots) : Option Slots :=
  if k = 0 then some out
  else do
    let qs ← Buffer.chunks? d queries
    out.eachRow? k qs fun q row => do
      let stored ← Buffer.chunksExact? d base
      let h ← stored.zipIdx.foldlM (fun h v => do h.push? (← candidate? score? q v))
        (SlotHeap.new metric row)
      h.finish?

def nearest? (metric : Metric) (queries base : Floats) (d k : Nat) : Slots → Option Slots :=
  best? metric queries base d k fun q v _ => some (metric.distance q v)

def nearestShifted? (queries base shift : Floats) (d k : Nat) : Slots → Option Slots :=
  best? .l2 queries base d k fun q v j => do return squaredDistance q v - (← shift[j]?)

def within? (metric : Metric) (queries base : Floats) (d : Nat) (radius : Binary32) :
    Option Matches := do
  let qs ← Buffer.chunks? d queries
  let parts ← qs.mapM fun q => do
    let stored ← Buffer.chunksExact? d base
    let cs ← stored.zipIdx.mapM (candidate? (fun q v _ => some (metric.distance q v)) q)
    return cs.filter fun c => metric.withinRadius c.distance radius
  return .ofPartials parts

/-- The distance from `q` to the vector under a label. -/
def rescoreSlot? (metric : Metric) (base : Floats) (d : Nat) (q : Floats) (l : Label) :
    Option Candidate :=
  if l = noLabel then some ⟨metric.worst, l⟩
  else do
    let row ← Buffer.slice? base (l.unsigned * d) ((l.unsigned + 1) * d)
    return ⟨metric.distance q row, l⟩

def rescore? (metric : Metric) (queries base : Floats) (d k : Nat) (out : Slots) :
    Option Slots :=
  if k = 0 then some out
  else do
    let qs ← Buffer.chunks? d queries
    out.eachRow? k qs fun q row => do
      return .ofCandidates (← row.labels.toList.mapM (rescoreSlot? metric base d q))

theorem chunks?_rows (hd : 0 < d) (hq : queries.size = nq * d) :
    Buffer.chunks? d queries = some (rows d queries) := by
  rw [Buffer.chunks?_eq_some hd hq, rows, hq, Nat.mul_div_cancel nq hd]
  rfl

theorem chunksExact?_rows (hd : 0 < d) (hb : base.size = n * d) :
    Buffer.chunksExact? d base = some (rows d base) := by
  rw [Buffer.chunksExact?_eq_some hd hb, rows, hb, Nat.mul_div_cancel n hd]
  rfl

theorem map_zipIdx_rows (score : Floats → Nat → Binary32) :
    (rows d base).zipIdx.map (fun v => ⟨score v.1 v.2, (v.2 : Label)⟩) = scored d base score := by
  refine List.ext_getElem (by simp [rows, scored]) fun j hj hj' => ?_
  simp [rows, scored]

theorem mem_zipIdx_rows {v : Floats × Nat} (h : v ∈ (rows d base).zipIdx) :
    v.2 < base.size / d := by
  have hlt := (List.mem_zipIdx h).2.1
  rwa [Nat.zero_add, length_rows] at hlt

/-- A row of the best: what its slots held does not matter. -/
theorem bestRow?_eq (metric : Metric) {score? : Floats → Floats → Nat → Option Binary32}
    (score : Floats → Floats → Nat → Binary32) {q : Floats} {row : Slots} (hrow : row.HasSize k)
    (hscore : ∀ v, ∀ j < base.size / d, score? q v j = some (score q v j)) :
    (do
      let h ← (rows d base).zipIdx.foldlM (fun h v => do h.push? (← candidate? score? q v))
        (SlotHeap.new metric row)
      h.finish?) =
      some (.ofCandidates (TopK.ofCandidates metric k (scored d base (score q))).finish) := by
  have hcandidate : ∀ v ∈ (rows d base).zipIdx,
      candidate? score? q v = some ⟨score q v.1 v.2, v.2⟩ := by
    intro v hv
    rw [candidate?, hscore v.1 v.2 (mem_zipIdx_rows hv)]
    rfl
  obtain ⟨h, hloop, hh⟩ := (SlotHeap.Holds.new metric hrow).pushEach hcandidate
  rw [map_zipIdx_rows (score q)] at hh
  rw [hloop]
  exact hh.finish?

theorem best?_eq {score? : Floats → Floats → Nat → Option Binary32}
    {score : Floats → Floats → Nat → Binary32} {out : Slots} (hd : 0 < d)
    (hq : queries.size = nq * d) (hb : base.size = n * d) (hout : out.HasSize (nq * k))
    (hscore : ∀ q v, ∀ j < n, score? q v j = some (score q v j)) :
    best? metric queries base d k score? out =
      some (best metric queries base d k out.distances.size score) := by
  have hnq : queries.size / d = nq := by rw [hq, Nat.mul_div_cancel nq hd]
  have hn : base.size / d = n := by rw [hb, Nat.mul_div_cancel n hd]
  have hbest : (best metric queries base d k out.distances.size score).HasSize (nq * k) := by
    rw [hout.distances]
    exact hasSize_best (Nat.le_of_eq (congrArg (· * k) hnq.symm))
  by_cases hk : k = 0
  · subst hk
    rw [best?, if_pos rfl]
    exact congrArg some (Slots.eq_of_hasSize_zero hout hbest)
  · rw [best?, if_neg hk, chunks?_rows hd hq, Option.bind_eq_bind, Option.bind_some]
    refine Slots.eachRow?_eq (Nat.pos_of_ne_zero hk) hout hbest (by rw [length_rows, hnq]) ?_
    intro i hi
    rw [length_rows] at hi
    have hroom : (i + 1) * k ≤ out.distances.size := by
      rw [hout.distances]
      exact Nat.mul_le_mul_right k (hnq ▸ hi)
    rw [chunksExact?_rows hd hb, best_row hi hroom]
    have hrow := bestRow?_eq metric score (q := rowOf d queries i) (hout.row (hnq ▸ hi))
      fun v j hj => hscore _ v j (hn ▸ hj)
    simpa [rows] using hrow

theorem nearest?_eq {out : Slots} (hd : 0 < d) (hq : queries.size = nq * d)
    (hb : base.size = n * d) (hout : out.HasSize (nq * k)) :
    nearest? metric queries base d k out =
      some (nearest metric queries base d k out.distances.size) :=
  best?_eq hd hq hb hout fun _ _ _ _ => rfl

theorem nearestShifted?_eq {out : Slots} (hd : 0 < d) (hq : queries.size = nq * d)
    (hb : base.size = n * d) (hout : out.HasSize (nq * k)) (hshift : shift.size = n) :
    nearestShifted? queries base shift d k out =
      some (nearestShifted queries base shift d k out.distances.size) := by
  refine best?_eq hd hq hb hout fun q v j hj => ?_
  have hj' : j < shift.size := by rwa [hshift]
  simp [hj', Array.getD_eq_getD_getElem?]

theorem within?_eq (hd : 0 < d) (hq : queries.size = nq * d) (hb : base.size = n * d) :
    within? metric queries base d radius = some (within metric queries base d radius) := by
  rw [within?, chunks?_rows hd hq, chunksExact?_rows hd hb]
  have hscored : ∀ q, (rows d base).zipIdx.mapM
      (candidate? (fun q v _ => some (metric.distance q v)) q) =
        some (scored d base fun v _ => metric.distance q v) := by
    intro q
    rw [← map_zipIdx_rows]
    exact mapM_eq_some (by simp) fun i hi => by simp [candidate?]
  have hparts : (rows d queries).mapM (fun q => do
      let cs ← (rows d base).zipIdx.mapM (candidate? (fun q v _ => some (metric.distance q v)) q)
      return cs.filter fun c => metric.withinRadius c.distance radius) =
      some ((rows d queries).map fun q => (scored d base fun v _ => metric.distance q v).filter
        fun c => metric.withinRadius c.distance radius) := by
    refine mapM_eq_some (by simp) fun i hi => ?_
    rw [hscored]
    simp
  simp only [bind, Option.bind] at hparts ⊢
  rw [hparts]
  rfl

end Scan

namespace Flat

variable {f : Flat} {x : Floats} {k nq : Nat} {out : Slots}

/-- A label that names a stored vector finds its row inside the stored vectors. -/
theorem rescoreSlot?_eq {l : Label} (hl : l.Proposable f.count) (q : Floats) :
    Scan.rescoreSlot? f.metric f.vectors f.dimension q l = some (f.candidateOf q l) := by
  unfold Scan.rescoreSlot? candidateOf
  by_cases hno : l = noLabel
  · rw [if_pos hno, if_pos hno]
  · have hstored := (Label.proposable_iff.1 hl).resolve_left hno
    obtain ⟨hunsigned, hlt⟩ := Label.unsigned_of_isStored hstored
    have hstop : (l.toNat + 1) * f.dimension ≤ f.vectors.size := by
      rw [vectors, f.storage.size_data]
      exact Nat.mul_le_mul_right _ hlt
    have hrow := Buffer.slice?_eq_some (a := f.vectors)
      (Nat.mul_le_mul_right f.dimension (Nat.le_succ l.toNat)) hstop
    rw [if_neg hno, if_neg hno, hunsigned, hrow]
    rfl

theorem rescore?_eq (hx : x.size = nq * f.dimension) (hout : out.HasSize (nq * k))
    (hl : ∀ l ∈ out.labels, l.Proposable f.count) :
    Scan.rescore? f.metric x f.vectors f.dimension k out = some (f.rescored x k out) := by
  have hd : 0 < f.dimension := f.storage.dimension_pos
  have hnq : x.size / f.dimension = nq := by rw [hx, Nat.mul_div_cancel nq hd]
  have hrescored : (f.rescored x k out).HasSize (nq * k) :=
    ⟨by rw [size_distances_rescored, hout.distances], hout.labels⟩
  by_cases hk : k = 0
  · subst hk
    rw [Scan.rescore?, if_pos rfl]
    exact congrArg some (Slots.eq_of_hasSize_zero hout hrescored)
  · rw [Scan.rescore?, if_neg hk, Scan.chunks?_rows hd hx, Option.bind_eq_bind, Option.bind_some]
    refine Slots.eachRow?_eq (Nat.pos_of_ne_zero hk) hout hrescored
      (by rw [Scan.length_rows, hnq]) fun i hi => ?_
    have hi' : i < nq := by rwa [Scan.length_rows, hnq] at hi
    have hlabels : (out.row k i).labels.toList.mapM (Scan.rescoreSlot? f.metric f.vectors
        f.dimension (rowOf f.dimension x i)) =
        some (((out.row k i).labels.toList).map (f.candidateOf (rowOf f.dimension x i))) := by
      refine mapM_eq_some (by simp) fun j hj => ?_
      rw [rescoreSlot?_eq (hl _ (Slots.mem_labels_of_row (List.getElem_mem hj))), List.getElem_map]
    have hrow : (f.rescored x k out).row k i = .ofCandidates
        ((out.row k i).labels.toList.map (f.candidateOf (rowOf f.dimension x i))) := by
      rw [← Slots.ofCandidates_candidates (hrescored.row hi'), rescored_row hout hnq.symm hi']
    rw [hrow]
    simp only [Scan.rows, List.getElem_map, List.getElem_range, hlabels]
    rfl

end Flat

namespace Refined

variable {metric : Metric} {k width nq : Nat} {cs out : Slots}

def rank? (metric : Metric) (k width : Nat) (candidates out : Slots) : Option Slots := do
  let rows ← candidates.rows? width
  out.eachRow? k rows fun cs row => do
    let h ← (SlotHeap.new metric row).extend? (← cs.slice? 0 k)
    let h ← if k < width then do h.extend? (← cs.slice? k width) else some h
    h.finish?

/-- The first `k` candidates and the others, offered one after the other, are all of them. -/
theorem rankRow?_eq {row : Slots} (hk : k ≤ width) (hcs : cs.HasSize width)
    (hrow : row.HasSize k) :
    (do
      let h ← (SlotHeap.new metric row).extend? (← cs.slice? 0 k)
      let h ← if k < width then do h.extend? (← cs.slice? k width) else some h
      h.finish?) = some (.ofCandidates (TopK.ofCandidates metric k cs.candidates).finish) := by
  have hcandidates : ∀ start stop, (⟨cs.distances.extract start stop,
      cs.labels.extract start stop⟩ : Slots).candidates =
        (cs.candidates.drop start).take (stop - start) := by
    intro start stop
    simp only [Slots.candidates, Array.toList_extract, List.extract_eq_take_drop, List.take_zipWith,
      List.drop_zipWith]
  have hlen : cs.candidates.length = width := by
    simp [Slots.candidates, hcs.distances, hcs.labels]
  obtain ⟨h, hfirst, hh⟩ := (SlotHeap.Holds.new metric hrow).extend
    ⟨cs.distances.extract 0 k, cs.labels.extract 0 k⟩
  rw [hcandidates, List.drop_zero, Nat.sub_zero] at hh
  rw [Slots.slice?_eq_some hcs (Nat.zero_le k) hk]
  simp only [bind, Option.bind, hfirst]
  by_cases hlt : k < width
  · obtain ⟨h', hrest, hh'⟩ := hh.extend ⟨cs.distances.extract k width, cs.labels.extract k width⟩
    have hdrop : (cs.candidates.drop k).take (width - k) = cs.candidates.drop k :=
      List.take_of_length_le (by rw [List.length_drop, hlen])
    rw [hcandidates, hdrop, TopK.extend, TopK.extend, ← List.foldl_append,
      List.take_append_drop] at hh'
    rw [if_pos hlt, Slots.slice?_eq_some hcs hk (Nat.le_refl width)]
    simp only [hrest]
    exact hh'.finish?
  · rw [List.take_of_length_le (by omega)] at hh
    rw [if_neg hlt]
    exact hh.finish?

theorem rank?_eq (hk : 0 < k) (hwidth : k ≤ width) (hcs : cs.HasSize (nq * width))
    (hout : out.HasSize (nq * k)) :
    rank? metric k width cs out = some (rank metric nq k width cs out) := by
  rw [rank?, Slots.rows?_eq (hk.trans_le hwidth) hcs, Option.bind_eq_bind, Option.bind_some]
  refine Slots.eachRow?_eq hk hout (hasSize_rank hout (Nat.le_refl _)) (by simp) fun i hi => ?_
  have hi' : i < nq := by simpa using hi
  rw [rank_row hwidth hcs hout hi', List.getElem_map, List.getElem_range]
  exact rankRow?_eq hwidth (hcs.row hi') (hout.row hi')

end Refined

end Neighbors
