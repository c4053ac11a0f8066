import Neighbors.Proofs.InPlace.Scan
import Neighbors.Proofs.Rowwise

/-!
# What rows list, whatever the distances are

A collector moves candidates and loses none that it keeps, also where a NaN leaves it no order: the
slots end with some of the candidates offered, as many as fit, each distance beside its label, and
then padding (`SlotHeap.finish?_pushes`). So a row of a flat or a shifted index lists different
stored vectors, each with its own score (`Scan.lists_best`).
-/

namespace Neighbors

theorem exists_map_of_subperm {α β : Type} {f : α → β} {l : List β} {r : List α}
    (h : l.Subperm (r.map f)) : ∃ r' : List α, r'.Subperm r ∧ l = r'.map f := by
  obtain ⟨l', hperm, hsub⟩ := h
  obtain ⟨r', hsub', rfl⟩ := List.sublist_map_iff.1 hsub
  have hcomp : Relation.Comp (· = List.map f ·) List.Perm l r' := by
    rw [List.eq_map_comp_perm]
    exact hperm.symm
  obtain ⟨r'', hl, hperm'⟩ := hcomp
  exact ⟨r'', ⟨r', hperm'.symm, hsub'⟩, hl⟩

namespace TopK

variable (metric : Metric) (k : Nat) (cs : List Candidate)

@[simp] theorem size_ofCandidates :
    (ofCandidates metric k cs).size = min k (cs.filter Candidate.isLabelled).length := by
  simpa [ofCandidates, empty, size] using size_extend (empty metric k) cs

/-- What is kept was offered, and no more often than it was offered. -/
theorem sorted_subperm :
    (ofCandidates metric k cs).sorted.Subperm (cs.filter Candidate.isLabelled) := by
  have hkept : (ofCandidates metric k cs).kept.toList.Subperm
      ((ofCandidates metric k cs).kept.toList ++ (empty metric k).droppedOf cs) :=
    (List.sublist_append_left _ _).subperm
  have hoffered := extend_perm (empty metric k) cs
  exact (sorted_perm _).subperm.trans (hkept.trans hoffered.subperm)

theorem finish_ofCandidates_eq : (ofCandidates metric k cs).finish =
    (ofCandidates metric k cs).sorted ++
      List.replicate (k - (ofCandidates metric k cs).sorted.length) .padding := by
  have hcapacity : (ofCandidates metric k cs).capacity = k := extend_capacity _ _
  rw [finish, length_sorted, hcapacity]

end TopK

/-- Candidates pushed one by one into slots of the caller: no step leaves them, and they end as the
row of a collector. -/
theorem SlotHeap.finish?_pushes (metric : Metric) {k : Nat} {s : Slots} (hs : s.HasSize k)
    (cs : List Candidate) : ∃ h, cs.foldlM push? (new metric s) = some h ∧
      h.used = (TopK.ofCandidates metric k cs).size ∧
      h.finish? = some (.ofCandidates (TopK.ofCandidates metric k cs).finish) := by
  have hloop := (Holds.new metric hs).pushEach (f := some) (g := id) (l := cs) fun _ _ => rfl
  rw [List.map_id] at hloop
  obtain ⟨h, hpushes, hh⟩ := hloop
  exact ⟨h, hpushes, hh.used, hh.finish?⟩

/-- The row lists different ones of `count` vectors, each with its score: as many as there are or as
fit, and if all fit, each of them once. The slots behind them are empty. -/
def Slots.Lists (count k : Nat) (score : Nat → Binary32) (row : Slots) : Prop :=
  ∃ labels : List Nat, labels.Nodup ∧ (∀ l ∈ labels, l < count) ∧ labels.length = min k count ∧
    (count ≤ k → labels.Perm (List.range count)) ∧
    row = .ofCandidates (labels.map (fun (l : Nat) => ⟨score l, l⟩) ++
      List.replicate (k - count) .padding)

/-- An entry with the label of a vector has the score of the vector. -/
theorem Slots.Lists.distance_of_label {n k : Nat} {score : Nat → Binary32} {row : Slots}
    (h : row.Lists n k score) {c : Candidate} (hc : c ∈ row.candidates) {l : Nat}
    (hl : c.label = l) : c.distance = score l := by
  obtain ⟨labels, -, -, -, -, rfl⟩ := h
  rw [Slots.candidates_ofCandidates, List.mem_append] at hc
  rcases hc with hc | hc
  · obtain ⟨j, -, rfl⟩ := List.mem_map.1 hc
    cases Int.ofNat_inj.1 hl
    rfl
  · rw [List.eq_of_mem_replicate hc] at hl
    exact absurd hl.symm (Label.natCast_ne_noLabel l)

namespace Scan

variable {metric : Metric} {queries base : Floats} {d k size : Nat}
  {score : Floats → Floats → Nat → Binary32}

theorem lists_finish (metric : Metric) (d k : Nat) (base : Floats)
    (score : Floats → Nat → Binary32) :
    (Slots.ofCandidates (TopK.ofCandidates metric k (scored d base score)).finish).Lists
      (base.size / d) k fun l => score (rowOf d base l) l := by
  have hkept := TopK.sorted_subperm metric k (scored d base score)
  have hsize := TopK.size_ofCandidates metric k (scored d base score)
  rw [filter_isLabelled_scored] at hkept hsize
  obtain ⟨labels, hlabels, hsorted⟩ := exists_map_of_subperm hkept
  have hlen : labels.length = min k (base.size / d) := by
    rw [← TopK.length_sorted, hsorted] at hsize
    simpa [scored] using hsize
  refine ⟨labels, ?_, fun l hl => List.mem_range.1 (hlabels.subset hl), hlen, fun hfit => ?_, ?_⟩
  · obtain ⟨l, hperm, hsub⟩ := hlabels
    exact hperm.nodup_iff.1 (List.nodup_range.sublist hsub)
  · refine hlabels.perm_of_length_le ?_
    rw [List.length_range, hlen, Nat.min_eq_right hfit]
  · have hrest : k - labels.length = k - base.size / d := by omega
    rw [TopK.finish_ofCandidates_eq, hsorted, List.length_map, hrest]

theorem lists_best_cut {i : Nat} (hi : i < queries.size / d) :
    ((best metric queries base d k size score).row k i).Lists (base.size / d)
      (min k (size - i * k)) fun l => score (rowOf d queries i) (rowOf d base l) l := by
  rw [best_row_cut hi]
  exact lists_finish metric d _ base _

theorem lists_best {i : Nat} (hi : i < queries.size / d) (hroom : (i + 1) * k ≤ size) :
    ((best metric queries base d k size score).row k i).Lists (base.size / d) k fun l =>
      score (rowOf d queries i) (rowOf d base l) l := by
  rw [best_row hi hroom]
  exact lists_finish metric d k base _

end Scan

def Flat.score (f : Flat) (q : Floats) (l : Nat) : Binary32 :=
  f.metric.distance q (rowOf f.dimension f.vectors l)

def Shifted.score (s : Shifted) (q : Floats) (l : Nat) : Binary32 :=
  squaredDistance q (rowOf s.storage.dimension s.storage.data l) - s.shift.getD l .zero

/-- Whatever distances are pushed, the slots end with some of the labelled candidates, as many as
there are or as fit, each distance beside the label it was pushed with, and then padding; that is
the row of a collector. So each row of a successful search in a flat or a shifted index lists
different stored vectors, each with its own score, as many as there are or as fit. A query has a row
if its slots are in the buffers. -/
theorem rows_list_offered :
    (∀ (metric : Metric) (k : Nat) (s : Slots) (cs : List Candidate), s.HasSize k →
      ∃ (h : SlotHeap) (held : List Candidate), cs.foldlM SlotHeap.push? (.new metric s) = some h ∧
        h.finish? = some (.ofCandidates (held ++ List.replicate (k - held.length) .padding)) ∧
        (TopK.ofCandidates metric k cs).finish =
          held ++ List.replicate (k - held.length) .padding ∧
        held.length = h.used ∧ h.used = min k (cs.filter Candidate.isLabelled).length ∧
        held.Subperm (cs.filter Candidate.isLabelled)) ∧
    (∀ (f : Flat) (x : Floats) (k : Nat) (out found : Slots),
      Index.search f x k out = .done found →
      ∀ i < x.size / f.dimension, (i + 1) * k ≤ out.distances.size →
        (found.row k i).Lists f.count k (f.score (rowOf f.dimension x i))) ∧
    ∀ (s : Shifted) (x : Floats) (k : Nat) (out found : Slots),
      Index.search s x k out = .done found → s.shift.size = s.storage.count ∧
        ∀ i < x.size / s.storage.dimension, (i + 1) * k ≤ out.distances.size →
          (found.row k i).Lists s.storage.count k (s.score (rowOf s.storage.dimension x i)) := by
  refine ⟨fun metric k s cs hs => ?_, fun f x k out found h i hi hroom => ?_,
    fun s x k out found h => ?_⟩
  · obtain ⟨heap, hpushes, hused, hfinish⟩ := SlotHeap.finish?_pushes metric hs cs
    have hrow := TopK.finish_ofCandidates_eq metric k cs
    refine ⟨heap, _, hpushes, hrow ▸ hfinish, hrow, ?_, ?_, TopK.sorted_subperm metric k cs⟩
    · rw [TopK.length_sorted, hused]
    · rw [hused, TopK.size_ofCandidates]
  · obtain ⟨-, rfl⟩ := f.search_eq_done_iff.1 h
    exact Scan.lists_best hi hroom
  · obtain ⟨hshift, -, -, rfl⟩ := Shifted.search_of_done h
    exact ⟨hshift, fun i hi hroom => Scan.lists_best hi hroom⟩

/-- A NaN pushed first stays, and one of the numbers has to go. -/
theorem rows_list_offered_nan :
    let out : Slots := ⟨.replicate 2 .one, .replicate 2 9⟩
    let cs : List Candidate := [⟨.nan, 0⟩, ⟨.one, 1⟩, ⟨.zero, noLabel⟩, ⟨.zero, 2⟩]
    let f : Flat := ⟨⟨1, #[.nan, .one, .zero], by decide, by decide⟩, .l2⟩
    let s : Shifted := ⟨f.storage, #[.zero, .nan, .one]⟩
    out.HasSize 2 ∧
      (∃ (h : SlotHeap) (held : List Candidate),
        cs.foldlM SlotHeap.push? (.new .l2 out) = some h ∧
        h.finish? = some (.ofCandidates held) ∧ held.length = 2 ∧
        held.Subperm [⟨.nan, 0⟩, ⟨.one, 1⟩, ⟨.zero, 2⟩]) ∧
      (∃ found, Index.search f #[.zero] 2 out = .done found ∧
        (found.row 2 0).Lists f.count 2 (f.score (rowOf 1 #[.zero] 0))) ∧
      ∃ found, Index.search s #[.zero] 2 out = .done found ∧
        (found.row 2 0).Lists f.count 2 (s.score (rowOf 1 #[.zero] 0)) := by
  intro out cs f s
  have hout : out.HasSize 2 := ⟨rfl, rfl⟩
  obtain ⟨hpushes, hflat, hshifted⟩ := rows_list_offered
  obtain ⟨h, held, hrun, hfinish, -, hlen, hused, hsub⟩ := hpushes .l2 2 out cs hout
  have hlen' : held.length = 2 := hlen.trans hused
  have hfinish' : h.finish? = some (.ofCandidates held) := by
    rw [hfinish, hlen', Nat.sub_self, List.replicate_zero, List.append_nil]
  have hshape : Index.checkShape 1 #[.zero] 2 out = .ok 1 := by decide
  have hf := f.search_eq_done_iff.2 ⟨⟨1, hshape⟩, rfl⟩
  have hs := s.search_eq_done_iff.2 ⟨by decide, ⟨1, hshape⟩, rfl⟩
  exact ⟨hout, ⟨h, held, hrun, hfinish', hlen', hsub⟩,
    ⟨_, hf, hflat f _ 2 out _ hf 0 (by decide) (by decide)⟩,
    ⟨_, hs, (hshifted s _ 2 out _ hs).2 0 (by decide) (by decide)⟩⟩

end Neighbors
