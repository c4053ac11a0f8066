import Neighbors.Proofs.Found
import Neighbors.Proofs.InPlace.InRange

/-!
# Calls of a tower succeed or change nothing

`Index.Atomic`: every call that fails leaves the index and the buffers of the caller as they were. A
refined index keeps its state because its base does (`Refined.keepsState`), and the steps of an
operation check before they write (`Index.ChecksFirst`). With what a search finds
(`Index.ReconstructsFound`) this makes each reachable tower atomic, up to numbers of slots of 64
bits (`Tower.Reachable.fails_unchanged`).
-/

namespace Neighbors

namespace Index

variable {σ : Type} [Index σ]

/-- An update that fails leaves the index as it was. -/
structure KeepsState (s : σ) : Prop where
  train : ∀ x, (Index.train s x).Atomic s
  add : ∀ x, (Index.add s x).Atomic s
  addWithIds : ∀ x ids, (Index.addWithIds s x ids).Atomic s
  removeIds : ∀ selector, (Index.removeIds s selector).Atomic s

/-- Every call that fails leaves the index and the buffers of the caller as they were. Only a search
with reconstruction whose numbers of slots have more than 64 bits may lose slots with a stray label
in them: what its search left unwritten is reported after that. -/
structure Atomic [Sized σ] (s : σ) : Prop extends KeepsState s, KeepsBuffers s where
  searchAndReconstruct : ∀ x k out vectors e,
    (Index.searchAndReconstruct s x k out vectors).answer = .error e →
    (Index.searchAndReconstruct s x k out vectors).state = (out, vectors) ∨
    (¬Sized.fits s x k ∧ (∃ l ∈ out.labels, ¬l.Proposable (count s)) ∧
      (Index.searchAndReconstruct s x k out vectors).state =
        ((Index.search s x k out).state, vectors))
  reconstructN : ∀ first n out, (Index.reconstructN s first n out).Atomic out
  computeResidual : ∀ x label residual, (Index.computeResidual s x label residual).Atomic residual

theorem ReconstructsFound.atomic [Sized σ] {s : σ} (hs : ReconstructsFound s)
    (hstate : KeepsState s) (hn : ∀ first n out, (Index.reconstructN s first n out).Atomic out) :
    Atomic s where
  toKeepsState := hstate
  toKeepsBuffers := hs.toKeepsBuffers
  searchAndReconstruct x k out vectors e he := by
    rcases hs.searchAndReconstruct_error he with hkept | ⟨hok, hafter, hlost⟩
    · exact .inl hkept
    · refine .inr ⟨fun hfits => ?_, ?_, hlost⟩
      · exact hs.not_failsAfterSearch (.inl hfits) hok hafter
      · by_contra hnone
        push Not at hnone
        exact hs.not_failsAfterSearch (.inr hnone) hok hafter
  reconstructN := hn
  computeResidual := hs.computeResidual_atomic

/-- Where an operation, step by step, takes all of its steps and fails, it has written nothing. -/
structure ChecksFirst [Steps σ] (s : σ) : Prop where
  add : ∀ x o, Steps.add? s x = some o → o.Atomic s
  search : ∀ x k out o, Steps.search? s x k out = some o → o.Atomic out
  removeIds : ∀ selector o, Steps.removeIds? s selector = some o → o.Atomic s
  reconstruct : ∀ label out o, Steps.reconstruct? s label out = some o → o.Atomic out
  reconstructN : ∀ first n out o, Steps.reconstructN? s first n out = some o → o.Atomic out

/-! ## A choice of indexes -/

variable {α β : Type} [Index α] [Index β]

theorem KeepsState.inl {a : α} (h : KeepsState a) : KeepsState (Sum.inl a : α ⊕ β) where
  train x := (h.train x).mapState (Sum.inl : α → α ⊕ β)
  add x := (h.add x).mapState (Sum.inl : α → α ⊕ β)
  addWithIds x ids := (h.addWithIds x ids).mapState (Sum.inl : α → α ⊕ β)
  removeIds selector := (h.removeIds selector).mapState (Sum.inl : α → α ⊕ β)

theorem KeepsState.inr {b : β} (h : KeepsState b) : KeepsState (Sum.inr b : α ⊕ β) where
  train x := (h.train x).mapState (Sum.inr : β → α ⊕ β)
  add x := (h.add x).mapState (Sum.inr : β → α ⊕ β)
  addWithIds x ids := (h.addWithIds x ids).mapState (Sum.inr : β → α ⊕ β)
  removeIds selector := (h.removeIds selector).mapState (Sum.inr : β → α ⊕ β)

theorem ReconstructsFound.inl [Sized α] [Sized β] {a : α} (h : ReconstructsFound a) :
    ReconstructsFound (.inl a : α ⊕ β) := ⟨⟨h.search, h.reconstruct⟩, h.found, h.stored⟩

theorem ReconstructsFound.inr [Sized α] [Sized β] {b : β} (h : ReconstructsFound b) :
    ReconstructsFound (.inr b : α ⊕ β) := ⟨⟨h.search, h.reconstruct⟩, h.found, h.stored⟩

theorem searchInto?_atomic {d k : Nat} {x : Floats} {out : Slots} {write? : Slots → Option Slots}
    {o : Outcome Slots Unit} (h : searchInto? d x k out write? = some o) : o.Atomic out := by
  obtain ⟨shape, -, hrest⟩ := Option.bind_eq_some_iff.1 h
  cases shape with
  | error e =>
    cases hrest
    exact Outcome.atomic_fail e out
  | ok nq =>
    obtain ⟨found, -, hdone⟩ := Option.bind_eq_some_iff.1 hrest
    cases hdone
    exact Outcome.atomic_of_ok rfl

theorem ChecksFirst.inl [Steps α] [Steps β] {a : α} (h : ChecksFirst a) :
    ChecksFirst (.inl a : α ⊕ β) where
  add x o ho := by
    obtain ⟨added, hadded, rfl⟩ := Option.map_eq_some_iff.1 ho
    exact (h.add x added hadded).mapState (Sum.inl : α → α ⊕ β)
  search := h.search
  removeIds selector o ho := by
    obtain ⟨rest, hrest, rfl⟩ := Option.map_eq_some_iff.1 ho
    exact (h.removeIds selector rest hrest).mapState (Sum.inl : α → α ⊕ β)
  reconstruct := h.reconstruct
  reconstructN := h.reconstructN

theorem ChecksFirst.inr [Steps α] [Steps β] {b : β} (h : ChecksFirst b) :
    ChecksFirst (.inr b : α ⊕ β) where
  add x o ho := by
    obtain ⟨added, hadded, rfl⟩ := Option.map_eq_some_iff.1 ho
    exact (h.add x added hadded).mapState (Sum.inr : β → α ⊕ β)
  search := h.search
  removeIds selector o ho := by
    obtain ⟨rest, hrest, rfl⟩ := Option.map_eq_some_iff.1 ho
    exact (h.removeIds selector rest hrest).mapState (Sum.inr : β → α ⊕ β)
  reconstruct := h.reconstruct
  reconstructN := h.reconstructN

end Index

open Outcome Index

/-! ## The indexes that keep vectors themselves -/

namespace Flat

theorem keepsState (f : Flat) : KeepsState f where
  train _ := atomic_replace f _
  add _ := atomic_replace f _
  addWithIds _ _ := atomic_fail _ f
  removeIds _ := atomic_of_ok rfl

variable {f : Flat} {x : Floats} {k n : Nat} {out : Slots} {row : Floats} {l : Label}

theorem rescore?_atomic {o : Outcome Slots Unit} (h : f.rescore? x k out = some o) :
    o.Atomic out := by
  obtain ⟨shape, -, hrest⟩ := Option.bind_eq_some_iff.1 h
  split at hrest
  · cases hrest
    exact atomic_fail _ out
  · split at hrest
    · cases hrest
      exact atomic_fail _ out
    · obtain ⟨scored, -, hdone⟩ := Option.bind_eq_some_iff.1 hrest
      cases hdone
      exact atomic_of_ok rfl

theorem reconstruct?_atomic {o : Outcome Floats Unit} (h : f.reconstruct? l row = some o) :
    o.Atomic row := by
  unfold reconstruct? at h
  split at h
  · cases h
    exact atomic_fail _ row
  · split at h
    · cases h
      exact atomic_fail _ row
    · split at h
      · obtain ⟨copied, -, rfl⟩ := Option.map_eq_some_iff.1 h
        exact atomic_of_ok rfl
      · cases h
        exact atomic_of_ok rfl

theorem reconstructN?_atomic {o : Outcome Floats Unit} (h : f.reconstructN? l n row = some o) :
    o.Atomic row := by
  unfold reconstructN? at h
  split at h
  · cases h
    exact atomic_fail _ row
  · split at h
    · obtain ⟨copied, -, rfl⟩ := Option.map_eq_some_iff.1 h
      exact atomic_of_ok rfl
    · cases h
      exact atomic_fail _ row

theorem checksFirst (f : Flat) : ChecksFirst f where
  add x o h := by
    cases h
    exact f.keepsState.add x
  search _ _ _ _ h := searchInto?_atomic h
  removeIds selector o h := by
    obtain ⟨⟨rest, compaction⟩, -, hdone⟩ := Option.bind_eq_some_iff.1 h
    cases hdone
    exact atomic_of_ok rfl
  reconstruct _ _ _ h := reconstruct?_atomic h
  reconstructN _ _ _ _ h := reconstructN?_atomic h

end Flat

theorem Shifted.keepsState (s : Shifted) : KeepsState s where
  train _ := atomic_replace s _
  add _ := atomic_replace s _
  addWithIds _ _ := atomic_fail _ s
  removeIds _ := atomic_of_ok rfl

theorem Shifted.checksFirst (s : Shifted) : ChecksFirst s where
  add x o h := by
    cases h
    exact s.keepsState.add x
  search x k out o h := by
    change s.search? x k out = some o at h
    unfold search? at h
    split at h
    · cases h
      exact atomic_fail _ out
    · exact searchInto?_atomic h
  removeIds selector o h := by
    obtain ⟨⟨rest, compaction⟩, -, hdone⟩ := Option.bind_eq_some_iff.1 h
    cases hdone
    exact atomic_of_ok rfl
  reconstruct _ _ _ h := Flat.reconstruct?_atomic h
  reconstructN _ _ _ _ h := Flat.reconstructN?_atomic h

theorem SortedAxis.keepsState (s : SortedAxis) : KeepsState s where
  train _ := atomic_replace s _
  add _ := atomic_replace s _
  addWithIds _ _ := atomic_fail _ s
  removeIds _ := atomic_of_ok rfl

theorem SortedAxis.checksFirst (s : SortedAxis) : ChecksFirst s where
  add x o h := by
    change s.add? x = some o at h
    unfold add? at h
    split at h
    · cases h
      exact atomic_fail _ s
    · obtain ⟨added, -, rfl⟩ := Option.map_eq_some_iff.1 h
      exact atomic_of_ok rfl
  search x k out o h := by
    change s.search? x k out = some o at h
    unfold search? at h
    split at h
    · cases h
      exact atomic_fail _ out
    · exact searchInto?_atomic h
  removeIds selector o h := by
    obtain ⟨⟨rest, compaction⟩, -, hrest⟩ := Option.bind_eq_some_iff.1 h
    dsimp only at hrest
    split at hrest
    · cases hrest
      exact atomic_of_ok rfl
    · obtain ⟨updated, -, hdone⟩ := Option.bind_eq_some_iff.1 hrest
      cases hdone
      exact atomic_of_ok rfl
  reconstruct _ _ _ h := Flat.reconstruct?_atomic h
  reconstructN _ _ _ _ h := Flat.reconstructN?_atomic h

namespace Stock

theorem keepsState (b : Stock) : KeepsState b := by
  obtain f | s | s := b
  · exact f.keepsState.inl
  · exact s.keepsState.inl.inr
  · exact s.keepsState.inr.inr

theorem checksFirst (b : Stock) : ChecksFirst b := by
  obtain f | s | s := b
  · exact f.checksFirst.inl
  · exact s.checksFirst.inl.inr
  · exact s.checksFirst.inr.inr

theorem Sound.reconstructsFound {b : Stock} (h : Sound b) : ReconstructsFound b := by
  obtain f | s | s := b
  · exact f.reconstructsFound.inl
  · exact s.reconstructsFound.inl.inr
  · exact (SortedAxis.Reachable.reconstructsFound h).inr.inr

end Stock

/-! ## Refinements -/

namespace Refined

variable {β : Type} [Index β]

theorem keepsState {r : Refined β} (h : KeepsState r.base) : KeepsState r where
  train x := by
    obtain ⟨e, he, htrain⟩ | ⟨-, htrain⟩ := r.train_cases x
    · rw [htrain, h.train x e he]
      exact atomic_fail e r
    · rw [htrain]
      exact atomic_of_ok rfl
  add x := add_atomic (h.add x)
  addWithIds _ _ := atomic_fail _ r
  removeIds _ := atomic_fail _ r

/-- The slots of the caller are written once the candidates are there. -/
theorem checksFirst [Steps β] {r : Refined β} (h : ChecksFirst r.base) : ChecksFirst r where
  add x o ho := by
    change r.add? x = some o at ho
    unfold add? at ho
    split at ho
    · cases ho
      exact atomic_fail _ r
    · split at ho
      · cases ho
        exact atomic_fail _ r
      · next n hrows =>
        obtain ⟨added, hadded, hrest⟩ := Option.bind_eq_some_iff.1 ho
        split at hrest
        · next e he =>
          cases hrest
          rw [h.add x added hadded e he]
          exact atomic_fail e r
        · cases hrest
          obtain ⟨f, hf, -⟩ := r.exact.add_of_rowCount hrows
          rw [hf]
          exact atomic_of_ok rfl
  search x k out o ho := by
    change r.search? x k out = some o at ho
    unfold search? at ho
    split at ho
    · cases ho
      exact atomic_fail _ out
    · obtain ⟨shape, -, hrest⟩ := Option.bind_eq_some_iff.1 ho
      split at hrest
      · cases hrest
        exact atomic_fail _ out
      · split at hrest
        · cases hrest
          exact atomic_of_ok rfl
        · obtain ⟨cs, -, hranked⟩ := Option.bind_eq_some_iff.1 hrest
          split at hranked
          · cases hranked
            exact atomic_fail _ out
          · obtain ⟨ranked, -, hdone⟩ := Option.bind_eq_some_iff.1 hranked
            cases hdone
            exact atomic_of_ok rfl
  removeIds _ o ho := by
    cases ho
    exact atomic_fail _ r
  reconstruct _ _ _ ho := Flat.reconstruct?_atomic ho
  reconstructN _ _ _ _ ho := Flat.reconstructN?_atomic ho

omit [Index β] in
theorem setFactor_atomic (r : Refined β) (factor : Binary32) : (r.setFactor factor).Atomic r := by
  unfold setFactor
  split
  · exact atomic_fail _ r
  · exact atomic_of_ok rfl

end Refined

namespace Tower

variable {n : Nat}

theorem keepsState {β : Type} [Index β] (h : ∀ b : β, KeepsState b) (t : Tower β n) :
    KeepsState t := by
  induction n with
  | zero => exact h t
  | succ n ih => exact Refined.keepsState (β := Tower β n) (ih (Refined.base t))

theorem checksFirst {β : Type} [Index β] [Steps β] (h : ∀ b : β, ChecksFirst b) (t : Tower β n) :
    ChecksFirst t := by
  induction n with
  | zero => exact h t
  | succ n ih => exact Refined.checksFirst (β := Tower β n) (ih (Refined.base t))

theorem reconstructsFound {t : Tower Stock n} (h : Stock.Sound (core t)) :
    ReconstructsFound t := by
  cases n with
  | zero => exact h.reconstructsFound
  | succ n => exact Refined.reconstructsFound (β := Tower Stock n) t

/-- Whatever call of a reachable tower fails, or of the flat copies and the factors of one, leaves
the index and the buffers of the caller as they were, whatever the arguments are. That is so because
the steps of a call check before they write. The one exception is a search with reconstruction over
slots with a stray label, if the candidates have a number of more than 64 bits: it leaves what its
search wrote. -/
theorem Reachable.fails_unchanged {t : Tower Stock n} (h : Reachable t) :
    Index.Atomic t ∧ ChecksFirst t ∧
    (∀ (f : Flat) x k out, (f.rescore x k out).Atomic out ∧
      ∀ o, f.rescore? x k out = some o → o.Atomic out) ∧
    ∀ (m : Nat) (r : Refined (Tower Stock m)) factor, (r.setFactor factor).Atomic r := by
  have hstate := keepsState Stock.keepsState t
  have hsteps := checksFirst Stock.checksFirst t
  have hrange := Tower.inRange h.sound_core.inRange
  refine ⟨(reconstructsFound h.sound_core).atomic hstate fun first m out => ?_, hsteps,
    fun f x k out => ⟨f.rescore_atomic x k out, fun _ => Flat.rescore?_atomic⟩,
    fun m r factor => r.setFactor_atomic factor⟩
  exact hsteps.reconstructN first m out _ (hrange.reconstructN first m out)

/-- The stale order of a sorted index under two refinements stops a search above them. -/
theorem fails_unchanged_stale_core :
    let copy : Flat := ⟨⟨1, #[], by decide, by decide⟩, .l2⟩
    let inner : Refined (Tower Stock 0) := ⟨Sum.inr (.inr (.empty ⟨false, 0⟩)), copy, .one, true⟩
    let t : Tower Stock 2 :=
      (Index.add (⟨inner, copy, .one, true⟩ : Refined (Tower Stock 1)) #[.one]).state
    let out : Slots := ⟨#[.one], #[9]⟩
    let left := Index.searchAndReconstruct t #[.zero] 1 out #[.one]
    Reachable t ∧ left.answer = .error (.permutationStale 0 1) ∧ left.state = (out, #[.one]) := by
  intro copy inner t out left
  have hinner : @Reachable 1 inner :=
    .refine (.sorted ⟨false, 0⟩) (show Refined.ofBase _ {} = _ from rfl)
  have houter : Refined.ofBase (β := Tower Stock 1) inner {} = .ok ⟨inner, copy, .one, true⟩ := by
    dsimp only [inner, copy]
    rfl
  have ht : Reachable t := .add _ (.refine hinner houter)
  have hanswer : left.answer = .error (.permutationStale 0 1) := by decide +kernel
  have hfits : Sized.fits t #[.zero] 1 := by
    refine ⟨by decide +kernel, by decide +kernel, by decide +kernel, ?_,
      (Stock.fits_iff ..).2 (by decide +kernel)⟩
    show _ * _ ≤ Count.limit
    decide +kernel
  refine ⟨ht, hanswer, ?_⟩
  rcases ht.fails_unchanged.1.searchAndReconstruct _ _ _ _ _ hanswer with hkept | ⟨hmuch, -, -⟩
  · exact hkept
  · exact absurd hfits hmuch

end Tower

end Neighbors
