import Neighbors.Proofs.FlatSearch
import Mathlib.Data.List.Induction

/-!
# Matches of several queries

The limits of `Matches.ofPartials` are the numbers of matches of the queries before
(`limits_ofPartials`), so that each query gets its own matches back (`query_ofPartials`). In a flat
index these are the vectors within the radius (`Flat.query_rangeSearch`).
-/

namespace Neighbors

namespace Matches

theorem ofPartials_concat (parts : List (List Candidate)) (part : List Candidate) :
    ofPartials (parts ++ [part]) = (ofPartials parts).push part := by
  simp [ofPartials]

theorem labels_ofPartials (parts : List (List Candidate)) :
    (ofPartials parts).labels = (parts.flatten.map Candidate.label).toArray := by
  induction parts using List.reverseRecOn with
  | nil => rfl
  | append_singleton parts part ih => simp [ofPartials_concat, push, ih]

theorem distances_ofPartials (parts : List (List Candidate)) :
    (ofPartials parts).distances = (parts.flatten.map Candidate.distance).toArray := by
  induction parts using List.reverseRecOn with
  | nil => rfl
  | append_singleton parts part ih => simp [ofPartials_concat, push, ih]

theorem limits_ofPartials (parts : List (List Candidate)) : (ofPartials parts).limits.toList =
    (List.range (parts.length + 1)).map fun i => (parts.take i).flatten.length := by
  induction parts using List.reverseRecOn with
  | nil => rfl
  | append_singleton parts part ih =>
    have hbefore : ∀ i ∈ List.range (parts.length + 1), ((parts ++ [part]).take i).flatten.length =
        (parts.take i).flatten.length := by
      intro i hi
      rw [List.take_append_of_le_length (Nat.le_of_lt_succ (List.mem_range.1 hi))]
    have hall : ((parts ++ [part]).take (parts.length + 1)).flatten.length =
        (ofPartials parts).labels.size + part.length := by
      rw [List.take_of_length_le (by simp), labels_ofPartials, List.flatten_append,
        List.length_append, List.flatten_singleton, List.size_toArray, List.length_map]
    rw [ofPartials_concat, List.length_append, List.length_singleton, List.range_succ,
      List.map_append, List.map_congr_left hbefore, ← ih, List.map_singleton, hall]
    simp [push]

@[simp] theorem queryCount_ofPartials (parts : List (List Candidate)) :
    (ofPartials parts).queryCount = parts.length := by
  have hlen := congrArg List.length (limits_ofPartials parts)
  simp only [Array.length_toList, List.length_map, List.length_range] at hlen
  rw [queryCount, hlen, Nat.add_sub_cancel]

theorem getElem?_limits_ofPartials {parts : List (List Candidate)} {i : Nat}
    (hi : i ≤ parts.length) :
    (ofPartials parts).limits[i]? = some (parts.take i).flatten.length := by
  rw [← Array.getElem?_toList, limits_ofPartials, List.getElem?_map,
    List.getElem?_range (Nat.lt_succ_of_le hi), Option.map_some]

theorem limit_ofPartials {parts : List (List Candidate)} {i : Nat} (hi : i ≤ parts.length) :
    (ofPartials parts).limits.getD i 0 = (parts.take i).flatten.length := by
  rw [Array.getD_eq_getD_getElem?, getElem?_limits_ofPartials hi, Option.getD_some]

theorem take_drop_flatten {α : Type} {parts : List (List α)} {i : Nat} (hi : i < parts.length) :
    (parts.flatten.drop (parts.take i).flatten.length).take
      ((parts.take (i + 1)).flatten.length - (parts.take i).flatten.length) = parts[i] := by
  have hsplit : parts.flatten =
      (parts.take i).flatten ++ (parts[i] ++ (parts.drop (i + 1)).flatten) := by
    rw [← List.flatten_cons, ← List.drop_eq_getElem_cons hi, ← List.flatten_append,
      List.take_append_drop]
  have hwidth : (parts.take (i + 1)).flatten.length - (parts.take i).flatten.length =
      parts[i].length := by
    rw [List.take_succ_eq_append_getElem hi, List.flatten_append, List.length_append]
    simp
  rw [hwidth, hsplit, List.drop_left, List.take_left]

theorem query_ofPartials {parts : List (List Candidate)} {i : Nat} (hi : i < parts.length) :
    (ofPartials parts).query i = .ofCandidates parts[i] := by
  have hpart := take_drop_flatten hi
  simp only [query, limit_ofPartials (Nat.le_of_lt hi), limit_ofPartials (Nat.succ_le_of_lt hi),
    labels_ofPartials, distances_ofPartials, List.extract_toArray, List.extract_eq_take_drop,
    ← List.map_drop, ← List.map_take, hpart]
  rfl

/-- The matches of `nq` queries lie end to end: the limits lead from none of them to all. -/
structure LaidOut (m : Matches) (nq : Nat) : Prop where
  queryCount : m.queryCount = nq
  first : m.limits[0]? = some 0
  ascending : m.limits.toList.Pairwise (· ≤ ·)
  last : m.limits[nq]? = some m.total
  distances : m.distances.size = m.total

theorem laidOut_ofPartials (parts : List (List Candidate)) :
    (ofPartials parts).LaidOut parts.length where
  queryCount := queryCount_ofPartials parts
  first := getElem?_limits_ofPartials (Nat.zero_le _)
  ascending := by
    rw [limits_ofPartials, List.pairwise_map]
    refine List.pairwise_lt_range.imp fun {i j} hij => ?_
    have hprefix : (parts.take i).Sublist (parts.take j) :=
      List.take_sublist_take_left (Nat.le_of_lt hij)
    exact hprefix.flatten.length_le
  last := by
    rw [getElem?_limits_ofPartials (Nat.le_refl _), List.take_length, total, labels_ofPartials,
      List.size_toArray, List.length_map]
  distances := by
    rw [total, labels_ofPartials, distances_ofPartials, List.size_toArray, List.size_toArray,
      List.length_map, List.length_map]

end Matches

namespace Flat

variable {f : Flat}

/-- The matches of a query, in label order. -/
def matching (f : Flat) (radius : Binary32) (q : Floats) : List Candidate :=
  (f.candidates q).filter fun c => f.metric.withinRadius c.distance radius

theorem rangeSearch_of_rows {x : Floats} {nq : Nat} (radius : Binary32)
    (h : rowCount f.dimension x = .ok nq) : Index.rangeSearch f x radius =
      .ok (.ofPartials ((Scan.rows f.dimension x).map (f.matching radius))) := by
  show f.rangeSearch x radius = _
  unfold rangeSearch
  rw [h]
  rfl

theorem query_rangeSearch {x : Floats} {nq i : Nat} (radius : Binary32)
    (h : rowCount f.dimension x = .ok nq) (hi : i < nq) :
    (Matches.ofPartials ((Scan.rows f.dimension x).map (f.matching radius))).query i =
      .ofCandidates (f.matching radius (rowOf f.dimension x i)) := by
  obtain ⟨-, -, rfl⟩ := rowCount_eq_ok_iff.1 h
  have hlen : i < ((Scan.rows f.dimension x).map (f.matching radius)).length := by
    simpa [Scan.rows] using hi
  rw [Matches.query_ofPartials hlen]
  simp [Scan.rows]

end Flat

end Neighbors
