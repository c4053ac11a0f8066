import Neighbors.Proofs.Contract
import Neighbors.Proofs.Refined.Updates

/-!
# A refined index and its copy

Over a base that keeps to the contract of updates, a refinement keeps to the whole contract
(`Refined.lawful`), and no call takes its copy out of step with the base (`Refined.InStep`). So the
copy has the batches of `Refined.Run`, and a search that reports a label out of range has it from
the search of the base (`Refined.search_labelOutOfRange`).
-/

namespace Neighbors

open Index

theorem Flat.vectors_add {f : Flat} {x : Floats} {n : Nat} (h : rowCount f.dimension x = .ok n) :
    (Index.add f x).answer = .ok () ∧ (Index.add f x).state.vectors = f.vectors ++ x := by
  obtain ⟨f', hf', hadd⟩ := f.add_of_rowCount h
  obtain ⟨storage, happend, rfl⟩ := map_eq_ok_iff.1 hf'
  rw [hadd]
  exact ⟨rfl, (Storage.append_eq_ok happend).2⟩

theorem Outcome.eq_error_of_replace {σ : Type} {old : σ} {r : Except Error σ} {e : Error}
    (h : (replace old r).answer = .error e) : r = .error e := by
  cases r with
  | error e' => exact congrArg Except.error (Except.error.inj h)
  | ok s => cases h

theorem Index.checkShape_ne_labelOutOfRange {d k c : Nat} {x : Floats} {out : Slots} {e : Error}
    {l : Label} (h : checkShape d x k out = .error e) : e ≠ .labelOutOfRange l c := by
  obtain rfl | ⟨expected, actual, rfl⟩ := checkShape_error h <;> exact nofun

theorem Flat.rescore_ne_labelOutOfRange {f : Flat} {x : Floats} {k c : Nat} {out : Slots}
    {l : Label} (hl : ∀ l ∈ out.labels, l.Proposable f.count) :
    (f.rescore x k out).answer ≠ .error (.labelOutOfRange l c) := by
  cases hshape : checkShape f.dimension x k out with
  | error e =>
    unfold Flat.rescore
    rw [hshape]
    exact fun h => checkShape_ne_labelOutOfRange hshape (Except.error.inj h)
  | ok nq =>
    rw [rescore_of_proposable hshape hl]
    exact nofun

namespace Refined

variable {β : Type} [Index β] {r : Refined β} {x : Floats}

/-- A refinement is as good as the updates of its base. -/
theorem updates (h : Updates r.base) : Updates r where
  train x := by
    obtain ⟨e, -, htrain⟩ | ⟨-, htrain⟩ := r.train_cases x
    · rw [htrain]
      exact ⟨⟨rfl, rfl⟩, rfl, rfl⟩
    · rw [htrain]
      exact ⟨⟨rfl, rfl⟩, rfl, rfl⟩
  add x := by
    have hatomic := add_atomic (h.add x).atomic
    obtain ⟨e, -, hadd⟩ | ⟨-, n, hn, ⟨e, -, hadd⟩ | ⟨-, hadd⟩⟩ := r.add_cases x
    · rw [hadd] at hatomic ⊢
      exact ⟨⟨rfl, rfl⟩, nofun, rfl, hatomic⟩
    · rw [hadd] at hatomic ⊢
      exact ⟨⟨rfl, rfl⟩, nofun, rfl, hatomic⟩
    · have hcopy := r.exact.updates.add x
      rw [hadd] at hatomic ⊢
      refine ⟨⟨hcopy.space.dimension, hcopy.space.metric⟩, fun m hm _ => ?_, rfl, hatomic⟩
      exact hcopy.count m hm (Flat.vectors_add hm).1
  reset := ⟨⟨rfl, rfl⟩, r.exact.updates.reset.count, rfl⟩

/-- What the base finds does not matter: a stray label makes the search fail. -/
theorem lawful (h : ∀ b : β, Updates b) : Lawful fun _ : Refined β => True where
  train _ _ _ := trivial
  add _ _ _ := trivial
  reset _ _ := trivial
  updates r _ := updates (h r.base)
  found _ _ _ _ _ hout hok := proposable_of_search hok (.inr hout)

/-! ## In step -/

/-- The base and the copy have as many vectors of one space, and the flag is that of the base. -/
structure InStep (r : Refined β) : Prop where
  space : SameSpace r.base r.exact
  count : Index.count r.base = r.exact.count
  trained : r.trained = Index.isTrained r.base

theorem inStep_ofBase {b : β} {settings : RefineSettings} (h : ofBase b settings = .ok r) :
    r.base = b ∧ r.exact.vectors = #[] ∧ InStep r := by
  obtain ⟨hcount, exact, hempty, rfl⟩ := ofBase_eq_ok h
  obtain ⟨storage, hstorage, rfl⟩ := map_eq_ok_iff.1 hempty
  unfold Storage.empty at hstorage
  split at hstorage
  · cases hstorage
    exact ⟨rfl, rfl, ⟨rfl, rfl⟩, hcount.trans (Nat.zero_div _).symm, rfl⟩
  · cases hstorage

namespace InStep

theorem train (h : InStep r) (hb : Updates r.base) (x : Floats) :
    InStep (Index.train r x).state := by
  obtain ⟨hspace, hcount, hflag⟩ := hb.train x
  obtain ⟨e, he, htrain⟩ | ⟨hok, htrain⟩ := r.train_cases x
  · rw [he] at hflag
    rw [htrain]
    exact ⟨hspace.symm.trans h.space, hcount.trans h.count, h.trained.trans hflag.symm⟩
  · rw [hok] at hflag
    rw [htrain]
    exact ⟨hspace.symm.trans h.space, hcount.trans h.count, hflag.symm⟩

theorem add (h : InStep r) (hb : Updates r.base) (x : Floats) : InStep (Index.add r x).state := by
  obtain ⟨hspace, hcount, hflag, hatomic⟩ := hb.add x
  obtain ⟨e, -, hadd⟩ | ⟨-, n, hn, ⟨e, he, hadd⟩ | ⟨hok, hadd⟩⟩ := r.add_cases x
  · rw [hadd]
    exact h
  · rw [hadd, hatomic e he]
    exact h
  -- Both stores take the batch, and a row has as many components in one as in the other.
  · have hn' : rowCount (Index.dimension r.base) x = .ok n := h.space.dimension ▸ hn
    have hcopy := r.exact.updates.add x
    have hcount' := hcopy.count n hn (Flat.vectors_add hn).1
    rw [hadd]
    refine ⟨hspace.symm.trans (h.space.trans hcopy.space), ?_, h.trained.trans hflag.symm⟩
    exact (hcount n hn' hok).trans ((congrArg (· + n) h.count).trans hcount'.symm)

theorem reset (h : InStep r) (hb : Updates r.base) : InStep (Index.reset r) := by
  have hcopy := r.exact.updates.reset
  obtain ⟨hspace, hcount, hflag⟩ := hb.reset
  exact ⟨hspace.symm.trans (h.space.trans hcopy.space), hcount.trans hcopy.count.symm,
    h.trained.trans hflag.symm⟩

theorem setFactor (h : InStep r) (factor : Binary32) : InStep (r.setFactor factor).state := by
  unfold Refined.setFactor
  cases RefineSettings.validate ⟨factor⟩
  · exact h
  · exact ⟨h.space, h.count, h.trained⟩

end InStep

/-! ## Labels out of range -/

theorem proposable_of_scratch {size count : Nat} {blank : Slots} (h : scratch size = .ok blank) :
    ∀ l ∈ blank.labels, l.Proposable count := by
  intro l hl
  obtain ⟨-, rfl⟩ := scratch_eq_ok_iff.1 h
  rw [Array.eq_of_mem_replicate hl]
  exact Label.proposable_noLabel count

theorem candidates_labelOutOfRange {nq width c : Nat} {l : Label}
    (hfound : ∀ y width blank, (∀ l ∈ blank.labels, l.Proposable r.exact.count) →
      (Index.search r.base y width blank).answer = .ok () →
      ∀ l ∈ (Index.search r.base y width blank).state.labels, l.Proposable r.exact.count)
    (h : r.candidates x nq width = .error (.labelOutOfRange l c)) :
    ∃ blank, scratch (Count.mul nq width) = .ok blank ∧
      (Index.search r.base x width blank).answer = .error (.labelOutOfRange l c) := by
  rcases bind_eq_error_iff.1 h with hscratch | ⟨blank, hscratch, hrest⟩
  · unfold scratch at hscratch
    split at hscratch <;> cases hscratch
  · refine ⟨blank, hscratch, ?_⟩
    rcases bind_eq_error_iff.1 hrest with hbase | ⟨_, hok, hscored⟩
    · exact hbase
    · exact absurd (map_eq_error_iff.1 hscored)
        (Flat.rescore_ne_labelOutOfRange
          (hfound x width blank (proposable_of_scratch hscratch) hok))

/-- A search that reports a label out of range has the report from the search of the base, if what
that finds is in range. -/
theorem search_labelOutOfRange {k c : Nat} {out : Slots} {l : Label}
    (hfound : ∀ y width blank, (∀ l ∈ blank.labels, l.Proposable r.exact.count) →
      (Index.search r.base y width blank).answer = .ok () →
      ∀ l ∈ (Index.search r.base y width blank).state.labels, l.Proposable r.exact.count)
    (h : (Index.search r x k out).answer = .error (.labelOutOfRange l c)) :
    ∃ nq blank, Index.checkShape r.exact.dimension x k out = .ok nq ∧
      scratch (Count.mul nq (candidateCount r.factor k)) = .ok blank ∧
      (Index.search r.base x (candidateCount r.factor k) blank).answer =
        .error (.labelOutOfRange l c) := by
  have hsearch : r.search x k out = .error (.labelOutOfRange l c) :=
    Outcome.eq_error_of_replace h
  cases ht : r.trained with
  | false =>
    unfold Refined.search at hsearch
    rw [ht] at hsearch
    cases hsearch
  | true =>
    cases hshape : Index.checkShape r.exact.dimension x k out with
    | error e =>
      unfold Refined.search at hsearch
      rw [ht, hshape] at hsearch
      exact absurd (Except.error.inj hsearch) (checkShape_ne_labelOutOfRange hshape)
    | ok nq =>
      by_cases hpos : nq * k = 0
      · rw [search_of_empty ht hshape hpos] at h
        cases h
      · rw [search_of_candidates ht hshape hpos] at hsearch
        obtain ⟨blank, hscratch, hbase⟩ :=
          candidates_labelOutOfRange hfound (map_eq_error_iff.1 hsearch)
        exact ⟨nq, blank, rfl, hscratch, hbase⟩

/-! ## Runs -/

/-- Calls have led from a refinement of `b`, which was empty, to `r`, failing calls included, and
`batches` have been added since the last reset. A search leaves the index alone. -/
inductive Run (b : β) : Refined β → List Floats → Prop where
  | ofBase {settings : RefineSettings} {r : Refined β} :
      Refined.ofBase b settings = .ok r → Run b r []
  | train {r : Refined β} {batches : List Floats} (x : Floats) : Run b r batches →
      Run b (Index.train r x).state batches
  | add {r : Refined β} {batches : List Floats} (x : Floats) : Run b r batches →
      (Index.add r x).answer = .ok () → Run b (Index.add r x).state (batches ++ [x])
  | addFails {r : Refined β} {batches : List Floats} {x : Floats} {e : Error} : Run b r batches →
      (Index.add r x).answer = .error e → Run b (Index.add r x).state batches
  | reset {r : Refined β} {batches : List Floats} : Run b r batches → Run b (Index.reset r) []
  | setFactor {r : Refined β} {batches : List Floats} (factor : Binary32) : Run b r batches →
      Run b (r.setFactor factor).state batches

namespace Run

variable {b : β} {batches : List Floats} {good : β → Prop}

theorem good_add (hlaw : Lawful good) (h : good r.base) (x : Floats) :
    good (Index.add r x).state.base := by
  rcases r.add_base x with hbase | hbase
  · rwa [hbase]
  · rw [hbase]
    exact hlaw.add _ x h

theorem inStep (hlaw : Lawful good) (hb : good b) (h : Run b r batches) :
    good r.base ∧ InStep r := by
  induction h with
  | ofBase hr =>
    obtain ⟨rfl, -, hstep⟩ := inStep_ofBase hr
    exact ⟨hb, hstep⟩
  | @train r batches x _ ih =>
    obtain ⟨hgood, hstep⟩ := ih
    rw [train_base]
    exact ⟨hlaw.train _ x hgood, hstep.train (hlaw.updates _ hgood) x⟩
  | @add r batches x _ _ ih =>
    obtain ⟨hgood, hstep⟩ := ih
    exact ⟨good_add hlaw hgood x, hstep.add (hlaw.updates _ hgood) x⟩
  | @addFails r batches x e _ _ ih =>
    obtain ⟨hgood, hstep⟩ := ih
    exact ⟨good_add hlaw hgood x, hstep.add (hlaw.updates _ hgood) x⟩
  | @reset r batches _ ih =>
    obtain ⟨hgood, hstep⟩ := ih
    exact ⟨hlaw.reset _ hgood, hstep.reset (hlaw.updates _ hgood)⟩
  | @setFactor r batches factor _ ih =>
    obtain ⟨hgood, hstep⟩ := ih
    rw [setFactor_base]
    exact ⟨hgood, hstep.setFactor factor⟩

theorem vectors (h : Run b r batches) :
    r.exact.vectors.toList = batches.flatMap Array.toList := by
  induction h with
  | ofBase hr => rw [(inStep_ofBase hr).2.1, List.flatMap_nil]
  | @train r batches x _ ih =>
    obtain ⟨e, -, htrain⟩ | ⟨-, htrain⟩ := r.train_cases x <;> rw [htrain] <;> exact ih
  | @add r batches x _ hok ih =>
    obtain ⟨e, -, hadd⟩ | ⟨-, n, hn, ⟨e, -, hadd⟩ | ⟨-, hadd⟩⟩ := r.add_cases x
    · rw [hadd] at hok
      cases hok
    · rw [hadd] at hok
      cases hok
    · have hcopy := congrArg Array.toList (Flat.vectors_add hn).2
      rw [hadd, List.flatMap_append, List.flatMap_singleton, ← ih, ← Array.toList_append]
      exact hcopy
  | @addFails r batches x e _ herror ih =>
    obtain ⟨e, -, hadd⟩ | ⟨-, n, -, ⟨e, -, hadd⟩ | ⟨-, hadd⟩⟩ := r.add_cases x
    · rw [hadd]
      exact ih
    · rw [hadd]
      exact ih
    · rw [hadd] at herror
      cases herror
  | reset _ _ => rfl
  | @setFactor r batches factor _ ih =>
    unfold Refined.setFactor
    cases RefineSettings.validate ⟨factor⟩ <;> exact ih

end Run

end Refined

end Neighbors
