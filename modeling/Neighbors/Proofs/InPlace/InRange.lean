import Neighbors.Proofs.InPlace.Steps
import Neighbors.Proofs.Tower.Reachable

/-!
# No step leaves its buffer

`Index.InRange s`: every operation on `s`, done step by step, succeeds in each step and comes to
what the operation answers, given that the numbers of slots have 64 bits. A flat or a shifted index
is in range whatever it holds, a sorted one because its order never names a value that is not there,
and a refinement because its base is, whatever labels that may propose.
-/

namespace Neighbors

open Index

namespace Index

variable {σ : Type} [Index σ] [Sized σ] [Steps σ]

/-- Every operation, step by step, is the operation. -/
structure InRange (s : σ) : Prop where
  add : ∀ x, Steps.add? s x = some (Index.add s x)
  search : ∀ x k out, Sized.fits s x k → Steps.search? s x k out = some (Index.search s x k out)
  rangeSearch : ∀ x radius, Steps.rangeSearch? s x radius = some (Index.rangeSearch s x radius)
  removeIds : ∀ selector, Steps.removeIds? s selector = some (Index.removeIds s selector)
  reconstruct : ∀ label out,
    Steps.reconstruct? s label out = some (Index.reconstruct s label out)
  reconstructN : ∀ first n out,
    Steps.reconstructN? s first n out = some (Index.reconstructN s first n out)

end Index

/-! ## Indexes that keep vectors themselves -/

namespace Flat

variable (f : Flat)

theorem rangeSearch?_eq (x : Floats) (radius : Binary32) :
    f.rangeSearch? x radius = some (f.rangeSearch x radius) := by
  unfold rangeSearch? rangeSearch
  cases hrows : rowCount f.dimension x with
  | error e => rfl
  | ok nq =>
    obtain ⟨hd, hmod, rfl⟩ := rowCount_eq_ok_iff.1 hrows
    have hwhole : x.size = x.size / f.dimension * f.dimension :=
      (Nat.div_mul_cancel (Nat.dvd_of_mod_eq_zero hmod)).symm
    have hvectors : f.vectors.size = f.count * f.dimension := f.storage.size_data
    dsimp only
    rw [Scan.within?_eq hd hwhole hvectors]
    rfl

theorem rescore?_eq_rescore {x : Floats} {k : Nat} (out : Slots)
    (h : x.size / f.dimension * k ≤ Count.limit) :
    f.rescore? x k out = some (f.rescore x k out) := by
  rw [rescore?, checkShape?_eq h, Option.bind_eq_bind, Option.bind_some, rescore]
  cases hshape : checkShape f.dimension x k out with
  | error e => rfl
  | ok nq =>
    obtain ⟨hd, hmod, rfl⟩ := rowCount_eq_ok_iff.1 (checkShape_eq_ok_iff.1 hshape).1
    have hwhole : x.size = x.size / f.dimension * f.dimension :=
      (Nat.div_mul_cancel (Nat.dvd_of_mod_eq_zero hmod)).symm
    simp only [bind]
    cases hfind : out.labels.toList.find? fun l => l ≠ noLabel && !l.isStored f.count with
    | some l => rfl
    | none =>
      have hl : ∀ l ∈ out.labels, l.Proposable f.count := fun l hmem => by
        by_contra hstray
        exact List.find?_eq_none.1 hfind l (Array.mem_toList_iff.2 hmem) (Label.stray_iff.2 hstray)
      dsimp only
      rw [rescore?_eq hwhole (WellShaped.of_checkShape hshape h).size hl]
      rfl

theorem inRange : InRange f where
  add _ := rfl
  search _ _ _ h := searchInto?_eq h fun _ hd hx hout =>
    Scan.nearest?_eq hd hx f.storage.size_data hout
  rangeSearch := f.rangeSearch?_eq
  removeIds selector := by
    show f.removeIds? selector = _
    rw [removeIds?, remove?_eq]
    rfl
  reconstruct := f.reconstruct?_eq
  reconstructN := f.reconstructN?_eq

end Flat

namespace Shifted

theorem inRange (s : Shifted) : InRange s where
  add _ := rfl
  search x k out h := by
    show s.search? x k out = some (.replace out (s.search x k out))
    unfold search? search
    split
    · rfl
    · next hshift =>
      exact searchInto?_eq h fun _ hd hx hout => Scan.nearestShifted?_eq hd hx s.storage.size_data
        hout (not_not.1 hshift)
  rangeSearch _ _ := rfl
  removeIds selector := by
    show s.removeIds? selector = _
    rw [removeIds?, Flat.remove?_eq]
    rfl
  reconstruct := s.flat.reconstruct?_eq
  reconstructN := s.flat.reconstructN?_eq

end Shifted

namespace SortedAxis

variable (s : SortedAxis)

theorem update?_eq : s.update? = some s.update := by
  rw [update?, sortedOrder?_eq]
  rfl

theorem updateIfContinuous?_eq : s.updateIfContinuous? = some s.updateIfContinuous := by
  unfold updateIfContinuous? updateIfContinuous
  split
  · exact s.update?_eq
  · rfl

variable {s}

/-- The order may lag behind. -/
theorem Ordered.inRange (hs : Ordered s) : InRange s where
  add x := by
    show s.add? x = _
    rw [add?, rowCount_one, updateIfContinuous?_eq]
    show _ = some (Outcome.replace s ((rowCount 1 x).map fun _ => s.add x))
    rw [rowCount_one]
    rfl
  search x k out h := by
    show s.search? x k out = some (.replace out (s.search x k out))
    unfold search? search
    cases hc : s.isCurrent with
    | false => rfl
    | true =>
      refine searchInto?_eq h fun nq _ hx hout => ?_
      rw [Nat.mul_one] at hx
      exact searchRows?_eq (hs.argsort_of_isCurrent hc) (hx ▸ hout)
  rangeSearch := s.flat.rangeSearch?_eq
  removeIds selector := by
    show s.removeIds? selector = _
    rw [removeIds?, Flat.remove?_eq]
    show _ = some (⟨.ok (s.remove selector).2, (s.remove selector).1⟩ : Outcome SortedAxis Nat)
    unfold SortedAxis.remove
    simp only [Option.bind_eq_bind, Option.bind_some, updateIfContinuous?_eq]
    split <;> rfl
  reconstruct := s.flat.reconstruct?_eq
  reconstructN := s.flat.reconstructN?_eq

end SortedAxis

section Sum

variable {α β : Type} [Index α] [Index β] [Sized α] [Sized β] [Steps α] [Steps β]

theorem Index.InRange.inl {a : α} (h : InRange a) : InRange (Sum.inl a : α ⊕ β) where
  add x := congrArg (Option.map _) (h.add x)
  search := h.search
  rangeSearch := h.rangeSearch
  removeIds selector := congrArg (Option.map _) (h.removeIds selector)
  reconstruct := h.reconstruct
  reconstructN := h.reconstructN

theorem Index.InRange.inr {b : β} (h : InRange b) : InRange (Sum.inr b : α ⊕ β) where
  add x := congrArg (Option.map _) (h.add x)
  search := h.search
  rangeSearch := h.rangeSearch
  removeIds selector := congrArg (Option.map _) (h.removeIds selector)
  reconstruct := h.reconstruct
  reconstructN := h.reconstructN

end Sum

theorem Stock.Sound.inRange {b : Stock} (h : Sound b) : InRange b := by
  obtain f | s | s := b
  · exact f.inRange.inl
  · exact s.inRange.inl.inr
  · exact (SortedAxis.Reachable.ordered h).inRange.inr.inr

/-! ## Refinements -/

namespace Refined

variable {β : Type} [Index β] [Sized β] [Steps β] {r : Refined β} {x : Floats} {nq width : Nat}

theorem candidates?_eq (hbase : InRange r.base) (hnq : nq = x.size / r.exact.dimension)
    (hwidth : nq * width ≤ Count.limit) (hfits : Sized.fits r.base x width) :
    r.candidates? x nq width = some (r.candidates x nq width) := by
  have hmul : Count.mul? nq width = some (nq * width) := if_pos hwidth
  rw [candidates?, hmul, candidates, Count.mul_eq hwidth]
  simp only [Option.bind_eq_bind, Option.bind_some]
  cases scratch (nq * width) with
  | error e => rfl
  | ok blank =>
    simp only [hbase.search x width blank hfits, Option.bind_some]
    cases hfound : (Index.search r.base x width blank).answer with
    | error e =>
      simp only [bind, Except.bind, hfound]
      rfl
    | ok u =>
      rw [hnq] at hwidth
      simp only [r.exact.rescore?_eq_rescore _ hwidth, Option.bind_some, bind, Except.bind, hfound]
      rfl

omit [Sized β] [Steps β] in
theorem hasSize_of_candidates {cs : Slots} {n : Nat} (hrows : rowCount r.exact.dimension x = .ok n)
    (h : r.candidates x n width = .ok cs) : cs.HasSize (Count.mul n width) := by
  obtain ⟨blank, found, hscratch, hbase, hrescore⟩ := candidates_ok h
  obtain ⟨⟨m, hm⟩, hl⟩ := Flat.rescore_ok hrescore
  have hsize := (checkShape_eq_ok_iff.1 hm).2
  have hmn := (checkShape_eq_ok_iff.1 hm).1.symm.trans hrows
  cases hmn
  have hcs := candidates_of_base hscratch (by rw [hbase]; rfl)
  rw [hbase, h] at hcs
  change Except.ok cs = (r.exact.rescore x width found).answer.map
    fun _ => (r.exact.rescore x width found).state at hcs
  rw [Flat.rescore_of_proposable hm hl] at hcs
  obtain rfl : cs = r.exact.rescored x width found := Except.ok.inj hcs
  exact ⟨by rw [Flat.size_distances_rescored, hsize.distances], hsize.labels⟩

theorem search?_eq (hbase : InRange r.base) {k : Nat} (out : Slots) (hfits : Sized.fits r x k) :
    r.search? x k out = some (.replace out (r.search x k out)) := by
  obtain ⟨hk, hwidth, hbelow⟩ := hfits
  unfold search? search
  cases r.trained with
  | false => rfl
  | true =>
    simp only [Bool.not_true, Bool.false_eq_true, if_false, checkShape?_eq hk,
      Option.bind_eq_bind, Option.bind_some]
    cases hshape : checkShape r.exact.dimension x k out with
    | error e => rfl
    | ok nq =>
      have hrows := (checkShape_eq_ok_iff.1 hshape).1
      obtain ⟨-, -, hnq⟩ := rowCount_eq_ok_iff.1 hrows
      simp only [bind, Except.bind]
      by_cases hempty : nq = 0 ∨ k = 0
      · rw [if_pos hempty, if_pos hempty]
        rfl
      · rw [if_neg hempty, if_neg hempty, candidates?_eq hbase hnq (hnq ▸ hwidth) hbelow]
        simp only [Option.bind]
        cases hcandidates : r.candidates x nq (candidateCount r.factor k) with
        | error e => rfl
        | ok cs =>
          have hpos : 0 < k := Nat.pos_of_ne_zero fun h => hempty (.inr h)
          dsimp only
          have hcs := hasSize_of_candidates hrows hcandidates
          rw [Count.mul_eq (hnq ▸ hwidth)] at hcs
          rw [rank?_eq hpos (le_candidateCount r.factor k) hcs
            (WellShaped.of_checkShape hshape hk).size]
          rfl

/-- Whatever the base is, and whatever labels it proposes. -/
theorem inRange (hbase : InRange r.base) : InRange r where
  add x := by
    show r.add? x = some (r.add x)
    unfold add? add
    cases r.trained with
    | false => rfl
    | true =>
      simp only [Bool.not_true, Bool.false_eq_true, if_false]
      cases rowCount r.exact.dimension x with
      | error e => rfl
      | ok n =>
        simp only [hbase.add x, Option.bind_eq_bind, Option.bind_some]
        cases (Index.add r.base x).answer <;> rfl
  search _ _ out h := search?_eq hbase out h
  rangeSearch _ _ := rfl
  removeIds _ := rfl
  reconstruct := r.exact.reconstruct?_eq
  reconstructN := r.exact.reconstructN?_eq

end Refined

theorem Tower.inRange {β : Type} [Index β] [Sized β] [Steps β] {n : Nat} {t : Tower β n}
    (h : InRange (core t)) : InRange t := by
  induction n with
  | zero => exact h
  | succ n ih => exact Refined.inRange (β := Tower β n) (ih (t := Refined.base t) h)

end Neighbors
