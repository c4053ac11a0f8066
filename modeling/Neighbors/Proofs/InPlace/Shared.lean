import Neighbors.Proofs.Filled
import Neighbors.Proofs.InPlace.InRange

/-!
# What every index can do, step by step

The operations that every index has from its own ones stay in range with those. Vectors are staged a
row at a time and copied out together; a search that fills its slots has a row for each of them.
-/

namespace Neighbors

/-- The labels of a range that is stored have 64 bits if those of all stored vectors do. -/
theorem Label.le_greatest_of_rangeWithin {first : Int} {n count i : Nat}
    (hcount : (count : Int) ≤ greatest + 1) (h : rangeWithin first n count = true) (hi : i < n) :
    first + i ≤ greatest := by
  rw [rangeWithin, Bool.and_eq_true, decide_eq_true_eq] at h
  obtain ⟨hlow, hrange⟩ := h
  change (0 : Int) ≤ first at hlow
  have hstop : first.toNat + n ≤ count := by
    unfold Count.add? at hrange
    split at hrange
    · simpa using hrange
    · cases hrange
  change (count : Int) ≤ (greatest : Int) + 1 at hcount
  change (first : Int) + i ≤ (greatest : Int)
  omega

namespace Index

/-! ## Staged rows -/

section Staged

variable {reconstruct? : Label → Floats → Option (Outcome Floats Unit)}
  {reconstruct : Label → Floats → Outcome Floats Unit} {d : Nat} {blank : Binary32}
  {labels : List Label} {out : Floats}

theorem reconstructRow?_eq (h : ∀ l row, reconstruct? l row = some (reconstruct l row)) (l : Label)
    (row : Floats) : reconstructRow? reconstruct? l row = some
      (if l = noLabel then .ok row
        else (reconstruct l row).answer.map fun _ => (reconstruct l row).state) := by
  unfold reconstructRow?
  split
  · rfl
  · rw [h]
    rfl

theorem collectRows?_eq (h : ∀ l row, reconstruct? l row = some (reconstruct l row))
    (row : Floats) (labels : List Label) :
    collectRows? reconstruct? (List.replicate labels.length row) labels = some
      (labels.mapM fun l => if l = noLabel then Except.ok row
        else (reconstruct l row).answer.map fun _ => (reconstruct l row).state) := by
  induction labels with
  | nil => rfl
  | cons l labels ih =>
    rw [List.length_cons, List.replicate_succ, collectRows?, reconstructRow?_eq h, List.mapM_cons]
    simp only [Option.bind_eq_bind, Option.bind_some]
    cases (if l = noLabel then Except.ok row
      else (reconstruct l row).answer.map fun _ => (reconstruct l row).state) with
    | error e => rfl
    | ok written =>
      dsimp only
      rw [ih]
      simp only [Option.bind_some, bind, Except.bind]
      cases labels.mapM fun l => if l = noLabel then Except.ok row
        else (reconstruct l row).answer.map fun _ => (reconstruct l row).state <;> rfl

/-- A successful run over a list gives as many rows, each of them long enough. -/
theorem length_of_mapM_ok {f : Label → Except Error Floats} {rows : List Floats}
    (hf : ∀ l row, f l = .ok row → row.size = d) (h : labels.mapM f = .ok rows) :
    (rows.flatMap Array.toList).length = labels.length * d := by
  induction labels generalizing rows with
  | nil =>
    cases h
    simp
  | cons l labels ih =>
    rw [List.mapM_cons] at h
    obtain ⟨row, hrow, h⟩ := bind_eq_ok_iff.1 h
    obtain ⟨rest, hrest, h⟩ := bind_eq_ok_iff.1 h
    cases h
    rw [List.flatMap_cons, List.length_append, Array.length_toList, hf l row hrow, ih hrest,
      List.length_cons, Nat.succ_mul, Nat.add_comm]

theorem chunksExact?_replicate (hd : 0 < d) (n : Nat) (blank : Binary32) :
    Buffer.chunksExact? d (Array.replicate (n * d) blank) =
      some (List.replicate n (Array.replicate d blank)) := by
  rw [Buffer.chunksExact?_eq_some hd Array.size_replicate]
  refine congrArg some (List.ext_getElem (by simp) fun i hi _ => ?_)
  have hlt : i < n := by simpa using hi
  have hwidth : (i + 1) * d - i * d = d := by rw [Nat.succ_mul, Nat.add_sub_cancel_left]
  simp [Nat.min_eq_left hlt, hwidth]

/-- Rows that are reconstructed into their own length end up in a buffer for all of them. -/
theorem stage?_eq (hd : 0 < d) (h : ∀ l row, reconstruct? l row = some (reconstruct l row))
    (hsize : ∀ {l buffer row}, reconstruct l buffer = .done row → row.size = buffer.size)
    (hout : out.size = labels.length * d) :
    stage? reconstruct? d blank labels out = some (collectRows reconstruct d blank labels) := by
  rw [stage?, hout, chunksExact?_replicate hd]
  simp only [Option.bind_eq_bind, Option.bind_some, collectRows?_eq h, collectRows]
  cases hrows : labels.mapM fun l => if l = noLabel then Except.ok (Array.replicate d blank)
      else (reconstruct l (Array.replicate d blank)).answer.map
        fun _ => (reconstruct l (Array.replicate d blank)).state with
  | error e => rfl
  | ok rows =>
    have hlen := length_of_mapM_ok (d := d) (fun l row hrow => ?_) hrows
    · have hcopy : (rows.flatMap Array.toList).toArray.size = out.size := by
        rw [List.size_toArray, hlen, hout]
      dsimp only
      rw [Buffer.copy?_eq_some hcopy]
      rfl
    · split at hrow
      · cases hrow
        exact Array.size_replicate
      · obtain ⟨_, hok, rfl⟩ := map_eq_ok_iff.1 hrow
        rw [hsize (Outcome.eq_done hok), Array.size_replicate]

end Staged

variable {σ : Type} [Index σ] [Sized σ] [Steps σ] {s : σ}

namespace InRange

theorem searchKnn (hs : InRange s) {x : Floats} {k : Nat} (hfits : Sized.fits s x k) :
    searchKnn? s x k = some (Index.searchKnn s x k) := by
  unfold searchKnn? Index.searchKnn
  cases hrows : rowCount (dimension s) x with
  | error e => rfl
  | ok nq =>
    have hslots := Sized.slots_le hfits
    rw [← (rowCount_eq_ok_iff.1 hrows).2.2] at hslots
    have hmul : Count.mul? nq k = some (nq * k) := if_pos hslots
    simp only [hmul, Option.bind_eq_bind, Option.bind_some, hs.search x k _ hfits,
      ← Count.mul_eq hslots]
    rfl

theorem assign (hs : InRange s) {x : Floats} {k : Nat} (hfits : Sized.fits s x k) :
    assign? s x k = some (Index.assign s x k) := by
  rw [assign?, hs.searchKnn hfits]
  rfl

theorem searchAndReconstruct (hs : InRange s) (hfills : FillsBuffers s) {x : Floats} {k : Nat}
    (hfits : Sized.fits s x k)
    (hvectors : x.size / dimension s * k * dimension s ≤ Count.limit) (out : Slots)
    (vectors : Floats) :
    searchAndReconstruct? s x k out vectors =
      some (Index.searchAndReconstruct s x k out vectors) := by
  have hslots := Sized.slots_le hfits
  unfold searchAndReconstruct? Index.searchAndReconstruct
  simp only [checkShape?_eq hslots, Option.bind_eq_bind, Option.bind_some]
  cases hshape : checkShape (dimension s) x k out with
  | error e => rfl
  | ok nq =>
    have hnq := eq_div_of_checkShape hshape
    rw [← hnq] at hslots hvectors
    have hmul : Count.mul? nq k = some (nq * k) := if_pos hslots
    have hmul' : Count.mul? (nq * k) (dimension s) = some (nq * k * dimension s) := if_pos hvectors
    simp only [hmul, hmul', Count.mul_eq hslots, Count.mul_eq hvectors, Option.bind_some]
    by_cases hsize : vectors.size = nq * k * dimension s
    · rw [if_neg (not_not.2 hsize), if_neg (not_not.2 hsize), hs.search x k out hfits]
      simp only [Option.bind_some]
      cases hfound : (Index.search s x k out).answer with
      | error e => rfl
      | ok u =>
        obtain ⟨n, hn, hfilled⟩ := hfills.search (Outcome.eq_done hfound)
        rw [hshape] at hn
        cases hn
        dsimp only
        cases (Index.search s x k out).state.labels.toList.find? fun l =>
            l ≠ noLabel && !l.isStored (count s) with
        | some l => rfl
        | none =>
          have hlabels : vectors.size =
              (Index.search s x k out).state.labels.toList.length * dimension s := by
            rw [hsize, Array.length_toList, hfilled.labels, Count.mul_eq hslots]
          dsimp only
          rw [← hsize, hlabels, stageRows_eq hfills.dimension_pos,
            stage?_eq hfills.dimension_pos hs.reconstruct hfills.reconstruct hlabels]
          rfl
    · rw [if_pos hsize, if_pos hsize]
      rfl

theorem computeResidual (hs : InRange s) (x : Floats) (label : Label) (residual : Floats) :
    computeResidual? s x label residual = some (Index.computeResidual s x label residual) := by
  unfold computeResidual? Index.computeResidual
  dsimp only
  split
  · rfl
  · split
    · rfl
    · rw [hs.reconstruct]
      simp only [Option.bind_eq_bind, Option.bind_some]
      cases (Index.reconstruct s label residual).answer <;> rfl

theorem reconstructEach (hs : InRange s) (hfills : FillsBuffers s)
    (hcount : (count s : Int) ≤ Label.greatest + 1) (first : Label) (n : Nat) (out : Floats) :
    reconstructEach? (dimension s) (count s) (Steps.reconstruct? s) first n out =
      some (Index.reconstructEach (dimension s) (count s) (Index.reconstruct s) first n out) := by
  unfold reconstructEach? Index.reconstructEach
  cases hcheck : checkRows (dimension s) n out with
  | error e => rfl
  | ok u =>
    dsimp only
    cases hrange : Label.rangeWithin first n (count s) with
    | false => rfl
    | true =>
      have hlabels : (List.range n).mapM (labelAfter? first) =
          some ((List.range n).map fun (i : Nat) => first + i) := by
        refine mapM_eq_some (by simp) fun i hi => ?_
        have hlt : i < n := by simpa using hi
        rw [List.getElem_range, List.getElem_map, List.getElem_range]
        exact if_pos (Label.le_greatest_of_rangeWithin hcount hrange hlt)
      have hsize : out.size = ((List.range n).map fun (i : Nat) => first + i).length *
          dimension s := by
        rw [List.length_map, List.length_range, size_of_checkRows hcheck]
      simp only [if_true, hlabels, Option.bind_eq_bind, Option.bind_some,
        stage?_eq hfills.dimension_pos hs.reconstruct hfills.reconstruct hsize]
      rfl

end InRange

end Index

end Neighbors
