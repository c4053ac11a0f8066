import Neighbors.Proofs.Shows
import Neighbors.Proofs.Tower.Atomic

/-!
# A tower searches like a flat index

`Tower.Alike t f`: the tower `t` and the flat index `f` have had the same additions and resets. Then
all flat copies in the tower are `f`, and what is under them has the vectors of `f`
(`Alike.copies`). So a search in the tower that succeeds leaves what one in `f` does, bit for bit:
all slots over a flat index, and the distances over a sorted one (`Alike.search_as_flat`).
-/

namespace Neighbors

/-! ## Copies -/

/-- The index has the vectors of `f` and ranks them as `f` does. -/
def Stock.Copies (f : Flat) : Stock → Prop
  | .inl g => g = f
  | .inr (.inl _) => False
  | .inr (.inr s) => SortedAxis.Reachable s ∧ s.flat = f

theorem Flat.eq_of_empty {f g : Flat} (hg : Flat.empty f.dimension f.metric = .ok g)
    (hf : f.count = 0) : g = f := by
  unfold Flat.empty Storage.empty at hg
  rw [dif_pos (show 0 < f.dimension from f.storage.dimension_pos)] at hg
  cases hg
  have hdata : f.storage.data = #[] := by
    have hmul := f.storage.count_mul
    rw [show f.storage.count = 0 from hf, Nat.zero_mul] at hmul
    exact Array.size_eq_zero_iff.1 hmul.symm
  obtain ⟨⟨d, data, hd, hwhole⟩, metric⟩ := f
  cases hdata
  rfl

theorem Flat.add_of_ragged (f : Flat) {x : Floats} {e : Error}
    (h : rowCount f.dimension x = .error e) : (Index.add f x).state = f := by
  have hragged : ¬x.size % f.storage.dimension = 0 := by
    intro hwhole
    have hok := rowCount_eq_ok_iff.2 ⟨f.storage.dimension_pos, hwhole, rfl⟩
    exact nomatch h.symm.trans hok
  show (Outcome.replace f (f.add x)).state = f
  unfold Flat.add Storage.append
  rw [dif_neg hragged]
  rfl

theorem SortedAxis.flat_add (s : SortedAxis) (x : Floats) :
    (s.add x).flat = (Index.add s.flat x).state := by
  have hwhole : x.size % s.flat.storage.dimension = 0 := Nat.mod_one _
  have hadd : (Index.add s.flat x).state =
      SortedAxis.flat { s with values := s.values ++ x } := by
    show (Outcome.replace s.flat (s.flat.add x)).state = _
    unfold Flat.add Storage.append
    rw [dif_pos hwhole]
    rfl
  rw [hadd]
  unfold SortedAxis.add updateIfContinuous
  split <;> rfl

namespace Tower

variable {n : Nat} {f : Flat}

/-- Every flat copy in the tower is `f`, and what is under all of them has the vectors of `f`. -/
def Copies (f : Flat) : {n : Nat} → Tower Stock n → Prop
  | 0, b => Stock.Copies f b
  | n + 1, t =>
    let r : Refined (Tower Stock n) := t
    r.exact = f ∧ r.trained = true ∧ Copies f r.base

namespace Copies

variable {t : Tower Stock n}

theorem profile (h : Copies f t) : Index.count t = f.count ∧ Index.dimension t = f.dimension ∧
    Index.metric t = f.metric ∧ Index.isTrained t = true := by
  cases n with
  | zero =>
    obtain g | s | s := t
    · cases h
      exact ⟨rfl, rfl, rfl, rfl⟩
    · exact h.elim
    · obtain ⟨-, rfl⟩ := h
      exact ⟨s.count_flat.symm, rfl, rfl, rfl⟩
  | succ n =>
    obtain ⟨rfl, ht, -⟩ := h
    exact ⟨rfl, rfl, rfl, ht⟩

theorem refine {settings : RefineSettings} {r : Refined (Tower Stock n)} (h : Copies f t)
    (hr : Refined.ofBase t settings = .ok r) : @Copies f (n + 1) r := by
  obtain ⟨hcount, hdim, hmetric, ht⟩ := h.profile
  obtain ⟨hempty, exact, hexact, rfl⟩ := Refined.ofBase_eq_ok hr
  rw [hdim, hmetric] at hexact
  exact ⟨Flat.eq_of_empty hexact (hcount.symm.trans hempty), ht, h⟩

theorem add_of_rowCount {x : Floats} {m : Nat} (h : Copies f t)
    (hx : rowCount f.dimension x = .ok m) : (Index.add t x).answer = .ok () ∧
      Copies (Index.add f x).state (Index.add t x).state := by
  induction n with
  | zero =>
    obtain g | s | s := t
    · cases h
      obtain ⟨f', -, hadd⟩ := f.add_of_rowCount hx
      exact ⟨congrArg Outcome.answer hadd, rfl⟩
    · exact h.elim
    · obtain ⟨hs, rfl⟩ := h
      refine ⟨?_, SortedAxis.Reachable.add x hs, ?_⟩
      · show (Outcome.replace s ((rowCount 1 x).map fun _ => s.add x)).answer = .ok ()
        rw [show rowCount 1 x = .ok m from hx]
        rfl
      · rw [SortedAxis.add_state, SortedAxis.flat_add]
  | succ n ih =>
    obtain ⟨rfl, ht, hbase⟩ := h
    obtain ⟨hok, hcopies⟩ := ih hbase
    have hadd := Refined.add_of_base (β := Tower Stock n) ht hx hok
    rw [show Index.add t x = _ from hadd]
    exact ⟨rfl, rfl, ht, hcopies⟩

/-- Any other batch is refused before it gets to a copy. -/
theorem add_of_ragged {x : Floats} {e : Error} (h : Copies f t)
    (hx : rowCount f.dimension x = .error e) : (Index.add t x).state = t := by
  cases n with
  | zero =>
    obtain g | s | s := t
    · cases h
      exact congrArg Sum.inl (f.add_of_ragged hx)
    · exact h.elim
    · obtain ⟨-, rfl⟩ := h
      exact nomatch (rowCount_one x).symm.trans hx
  | succ n =>
    obtain ⟨rfl, ht, -⟩ := h
    show (Refined.add (β := Tower Stock n) t x).state = t
    unfold Refined.add
    rw [ht, hx]
    rfl

theorem add (h : Copies f t) (x : Floats) : Copies (Index.add f x).state (Index.add t x).state := by
  cases hx : rowCount f.dimension x with
  | error e =>
    rw [f.add_of_ragged hx, h.add_of_ragged hx]
    exact h
  | ok m => exact (h.add_of_rowCount hx).2

theorem reset (h : Copies f t) : Copies (Index.reset f) (Index.reset t) := by
  induction n with
  | zero =>
    obtain g | s | s := t
    · cases h
      rfl
    · exact h.elim
    · obtain ⟨hs, rfl⟩ := h
      exact ⟨.reset hs, rfl⟩
  | succ n ih =>
    obtain ⟨rfl, ht, hbase⟩ := h
    exact ⟨rfl, ht, ih hbase⟩

theorem resort {s : SortedAxis} {order : Array Nat} (h : Copies f t) (hs : core t = .inr (.inr s))
    (hsort : Argsort s.values s.order.size order) :
    Copies f (setCore (.inr (.inr { s with order })) t) := by
  induction n with
  | zero =>
    cases hs
    obtain ⟨hreachable, rfl⟩ := h
    exact ⟨.resort hreachable hsort, rfl⟩
  | succ n ih =>
    obtain ⟨rfl, ht, hbase⟩ := h
    exact ⟨rfl, ht, ih hbase hs⟩

theorem stock (h : Copies f t) : Stock.Copies f (core t) := by
  induction n with
  | zero => exact h
  | succ n ih => exact ih h.2.2

/-- The order in which the index under all refinements shows `f` is that of the whole tower. -/
theorem shows {ahead : Candidate → Candidate → Prop} (h : Copies f t)
    (hcore : Index.Shows (core t) f ahead)
    (hrank : ∀ a b : Candidate, a.ByRank f.metric b → ahead a b) : Index.Shows t f ahead := by
  induction n with
  | zero => exact hcore
  | succ n ih =>
    obtain ⟨rfl, -, hbase⟩ := h
    exact Refined.shows (β := Tower Stock n) (ih hbase hcore) hrank

end Copies

/-! ## The same additions and resets -/

/-- The tower and the flat index have had the same additions and resets. The tower is made of
refinements, each over an index that was empty then, above a flat index or a sorted one. The order
of a sorted one can change to another one of the same values at any time. -/
inductive Alike : {n : Nat} → Tower Stock n → Flat → Prop where
  | flat {d : Nat} {metric : Metric} {f : Flat} :
      Flat.empty d metric = .ok f → @Alike 0 (.inl f) f
  | sorted (settings : SortedAxisSettings) {f : Flat} :
      Flat.empty 1 .l2 = .ok f → @Alike 0 (.inr (.inr (.empty settings))) f
  | refine {n : Nat} {t : Tower Stock n} {f : Flat} {settings : RefineSettings}
      {r : Refined (Tower Stock n)} :
      Alike t f → Refined.ofBase t settings = .ok r → @Alike (n + 1) r f
  | add {n : Nat} {t : Tower Stock n} {f : Flat} (x : Floats) :
      Alike t f → Alike (Index.add t x).state (Index.add f x).state
  | reset {n : Nat} {t : Tower Stock n} {f : Flat} :
      Alike t f → Alike (Index.reset t) (Index.reset f)
  | resort {n : Nat} {t : Tower Stock n} {f : Flat} {s : SortedAxis} {order : Array Nat} :
      Alike t f → core t = .inr (.inr s) → Argsort s.values s.order.size order →
      Alike (setCore (.inr (.inr { s with order })) t) f

theorem Alike.copies {t : Tower Stock n} (h : Alike t f) : Copies f t := by
  induction h with
  | flat _ => rfl
  | sorted settings hempty =>
    refine ⟨.empty settings, ?_⟩
    cases hempty
    rfl
  | refine _ hr ih => exact ih.refine hr
  | add x _ ih => exact ih.add x
  | reset _ ih => exact ih.reset
  | resort _ hs hsort ih => exact ih.resort hs hsort

variable {t : Tower Stock n} {x : Floats} {k : Nat} {out : Slots}

/-- A search in a tower that succeeds also succeeds in a flat index with the same additions and
resets, if the slots for all candidates have a number of 64 bits. If no distance is NaN, both leave
the same distances; over a flat index they also leave the same labels. -/
theorem Alike.search_as_flat (h : Alike t f) (hfits : Index.Sized.fits t x k)
    (hok : (Index.search t x k out).answer = .ok ())
    (hx : ∀ i < x.size / f.dimension, f.Measures (rowOf f.dimension x i)) :
    (Index.search f x k out).answer = .ok () ∧
    (Index.search t x k out).state.distances = (Index.search f x k out).state.distances ∧
    ((∃ g, core t = .inl g) → Index.search t x k out = Index.search f x k out) := by
  have hcopies := h.copies
  have hstock := hcopies.stock
  cases hcore : core t with
  | inl g =>
    rw [hcore] at hstock
    cases hstock
    have hshows := hcopies.shows (hcore ▸ f.shows) fun _ _ hab => hab
    have hsame := hshows.search_eq hfits hok hx
    exact ⟨hsame ▸ hok, congrArg (Slots.distances ∘ Outcome.state) hsame, fun _ => hsame⟩
  | inr b =>
    obtain s | s := b
    · rw [hcore] at hstock
      exact hstock.elim
    · rw [hcore] at hstock
      obtain ⟨hs, rfl⟩ := hstock
      have hshows := hcopies.shows (hcore ▸ hs.shows) fun _ _ hab => hab.byDistance
      obtain ⟨hfok, hdistances⟩ := SortedAxis.distances_of_shows hshows hfits hok hx
      exact ⟨hfok, hdistances, fun ⟨g, hg⟩ => nomatch hg⟩

/-- Products that are zeros of both signs, ties, and more slots than vectors, under two factors. For
two queries with `2 ^ 63` candidates each there is no slot at all: the search succeeds and writes
nothing. -/
theorem search_as_flat_ties :
    let empty : Flat := ⟨⟨1, #[], by decide, by decide⟩, .innerProduct⟩
    let inner : Refined (Tower Stock 0) := ⟨Sum.inl empty, empty, .ofNat 2, true⟩
    let batch : Floats := #[.zero, .one, .negZero, .one]
    let t : Tower Stock 2 :=
      (Index.add (⟨inner, empty, .one, true⟩ : Refined (Tower Stock 1)) batch).state
    let f : Flat := (Index.add empty batch).state
    let out : Slots := ⟨.replicate 5 .one, .replicate 5 9⟩
    let greedy : Refined (Tower Stock 0) :=
      (Index.add (⟨Sum.inl empty, empty, ⟨false, 0x5f000000, by decide⟩, true⟩ :
        Refined (Tower Stock 0)) batch).state
    let old : Slots := ⟨#[.one, .one], #[9, 9]⟩
    Alike t f ∧ Index.Sized.fits t #[.one] 5 ∧ (Index.search t #[.one] 5 out).answer = .ok () ∧
      Index.search t #[.one] 5 out = Index.search f #[.one] 5 out ∧
      @Alike 1 greedy f ∧ ¬Index.Sized.fits greedy #[.one, .one] 1 ∧
      (Index.search greedy #[.one, .one] 1 old).answer = .ok () ∧
      (Index.search greedy #[.one, .one] 1 old).state.labels = #[9, 9] ∧
      (Index.search f #[.one, .one] 1 old).state.labels = #[1, 1] := by
  intro empty inner batch t f out greedy old
  have hempty : Flat.empty 1 .innerProduct = .ok empty := rfl
  have hinner : Refined.ofBase (β := Tower Stock 0) (Sum.inl empty) ⟨.ofNat 2⟩ = .ok inner := by
    dsimp only [inner, empty]
    rfl
  have houter : Refined.ofBase (β := Tower Stock 1) inner {} = .ok ⟨inner, empty, .one, true⟩ := by
    dsimp only [inner, empty]
    rfl
  have halike : Alike t f := .add batch (.refine (.refine (.flat hempty) hinner) houter)
  have hcore : core t = .inl f := by
    dsimp only [t, f, inner, empty, batch]
    rfl
  have hok : (Index.search t #[.one] 5 out).answer = .ok () := by decide +kernel
  have hfits : Index.Sized.fits t #[.one] 5 := by
    refine ⟨by decide +kernel, by decide +kernel, by decide +kernel, ?_,
      (Stock.fits_iff ..).2 (by decide +kernel)⟩
    show _ * _ ≤ Count.limit
    decide +kernel
  have hgreedy : Refined.ofBase (β := Tower Stock 0) (Sum.inl empty)
      ⟨⟨false, 0x5f000000, by decide⟩⟩ =
        .ok ⟨Sum.inl empty, empty, ⟨false, 0x5f000000, by decide⟩, true⟩ := by
    dsimp only [empty]
    rfl
  have hmuch : ¬greedy.FitsCandidates #[.one, .one] 1 := by decide +kernel
  exact ⟨halike, hfits, hok, (halike.search_as_flat hfits hok (by decide +kernel)).2.2 ⟨f, hcore⟩,
    .add batch (.refine (.flat hempty) hgreedy), fun h => hmuch h.2.1, by decide +kernel,
    by decide +kernel, by decide +kernel⟩

end Tower

end Neighbors
