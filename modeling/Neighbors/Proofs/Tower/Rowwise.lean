import Neighbors.Proofs.InPlace.InRange
import Neighbors.Proofs.Rowwise
import Neighbors.Proofs.Tower.Aligned

/-!
# Queries of a tower on their own

Every level of a reachable tower answers a query of a batch as it answers the query alone, since the
base and the copy cut the batch alike (`Reachable.search_alone`). The slots for the candidates have
to have a number of 64 bits: else some of the queries are left without theirs.
-/

namespace Neighbors

open Index

/-- A search of `x` leaves `found` in all slots of the right size, whatever they held, and so does
one done step by step. -/
def Index.Finds {σ : Type} [Index σ] [Steps σ] (s : σ) (x : Floats) (k : Nat) (found : Slots) :
    Prop :=
  ∀ out : Slots, out.HasSize (x.size / dimension s * k) → Index.search s x k out = .done found ∧
    Steps.search? s x k out = some (.done found)

section

variable {d k i : Nat} {x : Floats}

theorem Index.slots_rowOf (hi : i < x.size / d) (k : Nat) : (rowOf d x i).size / d * k = k := by
  rw [size_rowOf_of_lt hi, Nat.div_self (pos_of_lt_div hi), Nat.one_mul]

theorem Index.slots_rowOf_le {limit : Nat} (hi : i < x.size / d) (h : x.size / d * k ≤ limit) :
    (rowOf d x i).size / d * k ≤ limit := by
  rw [slots_rowOf hi]
  exact (Nat.le_mul_of_pos_left k (Nat.zero_lt_of_lt hi)).trans h

variable {σ : Type} [Index σ] [Sized σ] [Steps σ] {s : σ} {out found : Slots}

theorem Index.InRange.finds (hs : InRange s) (hfits : Sized.fits s x k) (h : ∀ out : Slots,
    out.HasSize (x.size / dimension s * k) → Index.search s x k out = .done found) :
    Finds s x k found :=
  fun out hout => ⟨h out hout, by rw [hs.search x k out hfits, h out hout]⟩

theorem Index.Rowwise.finds (hs : Rowwise s) (hr : InRange s) (hfits : Sized.fits s x k)
    (h : Index.search s x k out = .done found) : Finds s x k found :=
  hr.finds hfits fun _ hother => hs.overwrites hfits h hother

theorem Index.Rowwise.finds_rowOf (hs : Rowwise s) (hr : InRange s) (hfits : Sized.fits s x k)
    (h : Index.search s x k out = .done found) (hi : i < x.size / dimension s)
    (hone : Sized.fits s (rowOf (dimension s) x i) k) :
    Finds s (rowOf (dimension s) x i) k (found.row k i) := by
  refine hr.finds hone fun own hown => hs.alone hfits h hi ?_
  rwa [slots_rowOf hi] at hown

end

namespace Tower

variable {n : Nat} {t : Tower Stock n} {x : Floats} {k i : Nat}

theorem Aligned.rowwise (h : Aligned t) : Rowwise t := by
  induction n with
  | zero => exact Stock.rowwise t
  | succ n ih =>
    obtain ⟨hstep, hbase⟩ := h
    exact Refined.rowwise (β := Tower Stock n) (ih hbase) hstep.space.dimension.symm

theorem Aligned.fits_rowOf (h : Aligned t) (hi : i < x.size / dimension t)
    (hfits : Sized.fits t x k) : Sized.fits t (rowOf (dimension t) x i) k := by
  induction n generalizing k with
  | zero => exact (Stock.fits_iff ..).2 (slots_rowOf_le hi ((Stock.fits_iff ..).1 hfits))
  | succ n ih =>
    obtain ⟨hstep, hbase⟩ := h
    obtain ⟨hslots, hwidth, hbelow⟩ := hfits
    have hd : dimension (Refined.base t) = dimension t := hstep.space.dimension.symm
    exact ⟨slots_rowOf_le hi hslots, slots_rowOf_le hi hwidth,
      hd ▸ ih (t := Refined.base t) hbase (by rwa [hd]) hbelow⟩

/-- In every reachable tower, a batch that is searched leaves the same in all slots of the right
size, and a query of it alone leaves its row, whatever the other queries are, if the slots for all
candidates have a number of 64 bits. The matches of each query are those of the query alone as well.
That holds whether or not there are NaNs. -/
theorem Reachable.search_alone (h : Reachable t) :
    (∀ {x k out found}, Sized.fits t x k → Index.search t x k out = .done found →
      found.HasSize (x.size / dimension t * k) ∧ Finds t x k found ∧
      ∀ i < x.size / dimension t,
        Finds t (rowOf (dimension t) x i) k (found.row k i) ∧
        Sized.fits t (rowOf (dimension t) x i) k ∧
        ∀ {y out' found'}, Sized.fits t y k → Index.search t y k out' = .done found' →
          ∀ j < y.size / dimension t, rowOf (dimension t) y j = rowOf (dimension t) x i →
            found'.row k j = found.row k i) ∧
    ∀ {x radius m}, rangeSearch t x radius = .ok m →
      m.queryCount = x.size / dimension t ∧
      ∀ i < x.size / dimension t, ∃ one : Matches,
        rangeSearch t (rowOf (dimension t) x i) radius = .ok one ∧ one.queryCount = 1 ∧
          one.total = (m.query i).labels.size ∧ one.query 0 = m.query i := by
  have hrows := h.aligned.rowwise
  have hrange := Tower.inRange h.sound_core.inRange
  refine ⟨fun {x k out found} hfits hdone => ?_, hrows.matches_alone _ _ _⟩
  obtain ⟨nq, hshape, hsize⟩ := (fillsBuffers t).search hdone
  rw [eq_div_of_checkShape hshape, Count.mul_eq (Sized.slots_le hfits)] at hsize
  refine ⟨hsize, hrows.finds hrange hfits hdone, fun i hi => ?_⟩
  have hone := h.aligned.fits_rowOf hi hfits
  exact ⟨hrows.finds_rowOf hrange hfits hdone hi hone, hone,
    fun hfits' hy j hj hq => hrows.row_eq hfits hfits' hdone hy hi hj hq⟩

/-- The first query is a NaN, and the slots hold what a search before left there. For two queries
with `2 ^ 63` candidates each there is no slot at all: what the slots held stays, while one of them
alone fails. -/
theorem search_alone_nan :
    let empty : Flat := ⟨⟨1, #[], by decide, by decide⟩, .l2⟩
    let r : Refined (Tower Stock 0) := ⟨.inl empty, empty, .ofNat 2, true⟩
    let t : Tower Stock 1 := (Index.add r #[.one, .zero]).state
    let f : Tower Stock 0 := (Index.add (.inl empty : Tower Stock 0) #[.one, .zero]).state
    let out : Slots := ⟨#[.nan, .one, .zero, .nan], #[5, 1, noLabel, 0]⟩
    let found := (Index.search t #[.nan, .one] 2 out).state
    let m : Matches := ⟨#[0, 0, 2], #[0, 1], #[.zero, .one]⟩
    let greedy : Tower Stock 1 := (r.setFactor ⟨false, 0x5f000000, by decide⟩).state
    Reachable t ∧ Index.search t #[.nan, .one] 2 out = .done found ∧
      Sized.fits t #[.nan, .one] 2 ∧ found.row 2 1 = ⟨#[.zero, .one], #[0, 1]⟩ ∧
      Finds t #[.one] 2 (found.row 2 1) ∧
      Reachable f ∧ rangeSearch f #[.nan, .one] (.ofNat 2) = .ok m ∧
      (∃ one : Matches, rangeSearch f #[.one] (.ofNat 2) = .ok one ∧ one.query 0 = m.query 1) ∧
      Reachable greedy ∧ ¬Sized.fits greedy #[.nan, .one] 1 ∧
      (∀ l ∈ ([8, 9] : List Label),
        (Index.search greedy #[.nan, .one] 1 ⟨#[.one, .one], #[l, l]⟩).answer = .ok () ∧
        (Index.search greedy #[.nan, .one] 1 ⟨#[.one, .one], #[l, l]⟩).state.labels = #[l, l]) ∧
      (Index.search greedy #[.one] 1 ⟨#[.one], #[0]⟩).answer = .error .allocation := by
  intro empty r t f out found m greedy
  have hempty : Flat.empty 1 .l2 = .ok empty := rfl
  have hbase : Refined.ofBase (β := Tower Stock 0) (.inl empty) ⟨.ofNat 2⟩ = .ok r := by
    dsimp only [r, empty]
    rfl
  have hr : @Reachable 1 r := .refine (.flat hempty) hbase
  have ht : Reachable t := .add _ hr
  have hf : Reachable f := .add _ (.flat hempty)
  have hdone : Index.search t #[.nan, .one] 2 out = .done found :=
    Outcome.eq_done (by decide +kernel)
  have hok : rangeSearch f #[.nan, .one] (.ofNat 2) = .ok m := by decide +kernel
  have hq : rowOf (dimension t) #[.nan, .one] 1 = #[.one] := by decide +kernel
  have hq' : rowOf (dimension f) #[.nan, .one] 1 = #[.one] := by decide +kernel
  have hfits : Sized.fits t #[.nan, .one] 2 :=
    ⟨by decide +kernel, by decide +kernel, (Stock.fits_iff ..).2 (by decide +kernel)⟩
  have hfinds := ((Reachable.search_alone ht).1 hfits hdone).2.2 1 (by decide +kernel)
  obtain ⟨one, hone, -, -, hquery⟩ := ((Reachable.search_alone hf).2 hok).2 1 (by decide +kernel)
  rw [hq] at hfinds
  rw [hq'] at hone
  have hmuch : ¬Refined.FitsCandidates (β := Tower Stock 0) greedy #[.nan, .one] 1 := by
    decide +kernel
  exact ⟨ht, hdone, hfits, by decide +kernel, hfinds.1, hf, hok, ⟨one, hone, hquery⟩,
    .setFactor _ hr, fun h => hmuch h.2.1, by decide +kernel, by decide +kernel⟩

end Tower

end Neighbors
