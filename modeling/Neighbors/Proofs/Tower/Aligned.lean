import Neighbors.Proofs.Refined.CandidateCount
import Neighbors.Proofs.Refined.Copy
import Neighbors.Proofs.Tower.Atomic

/-!
# Towers in step

`Tower.Aligned`: in every refinement of a tower the base and the copy are in step. It holds of each
reachable tower (`Reachable.aligned`), so that none of these ever reports a label out of range. Over
any lawful base a refinement is in step with it as well, but a search hands on what the search of
the base reports (`Refined.Run.keeps_in_step`).
-/

namespace Neighbors

open Index

def Index.FindsInRange {σ : Type} [Index σ] (s : σ) : Prop :=
  ∀ x k out l c, (Index.search s x k out).answer ≠ .error (.labelOutOfRange l c)

theorem Stock.findsInRange (b : Stock) : FindsInRange b := by
  intro x k out l c h
  obtain f | s | s := b
  · have hsearch : f.search x k out = .error _ := Outcome.eq_error_of_replace h
    exact checkShape_ne_labelOutOfRange (map_eq_error_iff.1 hsearch) rfl
  · have hsearch : s.search x k out = .error _ := Outcome.eq_error_of_replace h
    unfold Shifted.search at hsearch
    split at hsearch
    · cases hsearch
    · exact checkShape_ne_labelOutOfRange (map_eq_error_iff.1 hsearch) rfl
  · have hsearch : s.search x k out = .error _ := Outcome.eq_error_of_replace h
    unfold SortedAxis.search at hsearch
    split at hsearch
    · cases hsearch
    · exact checkShape_ne_labelOutOfRange (map_eq_error_iff.1 hsearch) rfl

namespace Tower

variable {β : Type} [Index β] {n : Nat}

theorem updates (h : ∀ b : β, Updates b) (t : Tower β n) : Updates t := by
  induction n with
  | zero => exact h t
  | succ n ih => exact Refined.updates (β := Tower β n) (ih (Refined.base t))

def Aligned : {n : Nat} → Tower β n → Prop
  | 0, _ => True
  | n + 1, t =>
    let r : Refined (Tower β n) := t
    r.InStep ∧ Aligned r.base

namespace Aligned

theorem train {t : Tower β n} (hβ : ∀ b : β, Updates b) (h : Aligned t) (x : Floats) :
    Aligned (Index.train t x).state := by
  induction n with
  | zero => trivial
  | succ n ih =>
    obtain ⟨hstep, hbase⟩ := h
    refine ⟨hstep.train (updates hβ _) x, ?_⟩
    rw [show Refined.base (β := Tower β n) (Index.train t x).state = _ from Refined.train_base ..]
    exact ih hbase

theorem add {t : Tower β n} (hβ : ∀ b : β, Updates b) (h : Aligned t) (x : Floats) :
    Aligned (Index.add t x).state := by
  induction n with
  | zero => trivial
  | succ n ih =>
    obtain ⟨hstep, hbase⟩ := h
    refine ⟨hstep.add (updates hβ _) x, ?_⟩
    rcases Refined.add_base (β := Tower β n) t x with hsame | hadd
    · exact hsame ▸ hbase
    · exact hadd ▸ ih hbase

theorem reset {t : Tower β n} (hβ : ∀ b : β, Updates b) (h : Aligned t) :
    Aligned (Index.reset t) := by
  induction n with
  | zero => trivial
  | succ n ih =>
    obtain ⟨hstep, hbase⟩ := h
    exact ⟨hstep.reset (updates hβ _), ih hbase⟩

theorem setFactor {r : Refined (Tower β n)} (h : @Aligned β _ (n + 1) r) (factor : Binary32) :
    @Aligned β _ (n + 1) (r.setFactor factor).state := by
  obtain ⟨hstep, hbase⟩ := h
  exact ⟨hstep.setFactor factor, (r.setFactor_base factor).symm ▸ hbase⟩

end Aligned

/-- Another order of the same values does not show from outside. -/
theorem setCore_order {t : Tower Stock n} {s : SortedAxis} (h : core t = .inr (.inr s))
    (order : Array Nat) : SameSpace (setCore (.inr (.inr { s with order })) t) t ∧
      Index.count (setCore (.inr (.inr { s with order })) t) = Index.count t ∧
      Index.isTrained (setCore (.inr (.inr { s with order })) t) = Index.isTrained t := by
  cases n with
  | zero =>
    cases h
    exact ⟨⟨rfl, rfl⟩, rfl, rfl⟩
  | succ n => exact ⟨⟨rfl, rfl⟩, rfl, rfl⟩

theorem Aligned.resort {t : Tower Stock n} {s : SortedAxis} (h : Aligned t)
    (hs : core t = .inr (.inr s)) (order : Array Nat) :
    Aligned (setCore (.inr (.inr { s with order })) t) := by
  induction n with
  | zero => trivial
  | succ n ih =>
    obtain ⟨hstep, hbase⟩ := h
    obtain ⟨hspace, hcount, hflag⟩ := setCore_order (t := Refined.base t) hs order
    refine ⟨⟨hspace.trans hstep.space, hcount.trans hstep.count, ?_⟩, ih hbase hs⟩
    exact hstep.trained.trans hflag.symm

theorem Reachable.aligned {t : Tower Stock n} (h : Reachable t) : Aligned t := by
  induction h with
  | flat _ => trivial
  | shifted _ => trivial
  | sorted _ => trivial
  | refine _ hr ih =>
    obtain ⟨rfl, -, hstep⟩ := Refined.inStep_ofBase hr
    exact ⟨hstep, ih⟩
  | base _ ih => exact ih.2
  | train x _ ih => exact ih.train Stock.updates x
  | add x _ ih => exact ih.add Stock.updates x
  | @addWithIds n t x ids _ ih =>
    cases n with
    | zero => trivial
    | succ n => exact ih
  | @removeIds n t selector _ ih =>
    cases n with
    | zero => trivial
    | succ n => exact ih
  | reset _ ih => exact ih.reset Stock.updates
  | setFactor factor _ ih => exact ih.setFactor factor
  | setShift _ _ => trivial
  | update _ _ => trivial
  | resort _ hcore _ ih => exact ih.resort hcore _

theorem Aligned.findsInRange {t : Tower Stock n} (h : Aligned t) (hs : Stock.Sound (core t)) :
    FindsInRange t := by
  induction n with
  | zero => exact Stock.findsInRange t
  | succ n ih =>
    intro x k out l c herror
    obtain ⟨hstep, hbase⟩ := h
    have hfound := (reconstructsFound (t := Refined.base t) hs).found
    rw [hstep.count] at hfound
    obtain ⟨nq, blank, -, -, hreport⟩ := Refined.search_labelOutOfRange (β := Tower Stock n)
      (fun _ _ _ hout => hfound _ _ _ (.inr hout)) herror
    exact ih hbase hs _ _ _ _ _ hreport

/-- On every level a query alone asks for a number of candidates of 64 bits. -/
theorem Aligned.fits_of_one {t : Tower Stock n} {x : Floats} {k : Nat} (h : Aligned t)
    (hx : x.size / dimension t = 1) (hk : k ≤ Count.limit) : Sized.fits t x k := by
  induction n generalizing k with
  | zero =>
    refine (Stock.fits_iff t x k).2 ?_
    rwa [show x.size / dimension (σ := Stock) t = 1 from hx, Nat.one_mul]
  | succ n ih =>
    obtain ⟨hstep, hbase⟩ := h
    have hd : dimension (Refined.base t) = dimension t := hstep.space.dimension.symm
    refine ⟨?_, .of_one hx hk, ih hbase (hd ▸ hx) (Refined.candidateCount_le_limit _ hk)⟩
    show x.size / dimension t * k ≤ Count.limit
    rwa [hx, Nat.one_mul]

theorem Reachable.lawful (n : Nat) : Lawful (@Reachable n) where
  train _ x h := h.train x
  add _ x h := h.add x
  reset _ h := h.reset
  updates t _ := updates Stock.updates t
  found _ x k out h hout := (reconstructsFound h.sound_core).found x k out (.inr hout)

end Tower

namespace Refined

variable {β : Type} [Index β] {good : β → Prop} {b : β} {r : Refined β} {batches : List Floats}

/-- Whatever calls a refinement of an empty, lawful base has had: the base has as many vectors as
the copy, the copy has the batches added since the last reset end to end, and the flag is that of
the base. A search reports a label out of range only if the search of the base does. The towers of
the library's indexes are lawful bases, and none of them ever reports one. -/
theorem Run.keeps_in_step (hlaw : Lawful good) (hb : good b) (h : Run b r batches) :
    Index.count r.base = r.exact.count ∧
    r.exact.vectors.toList = batches.flatMap Array.toList ∧
    r.trained = Index.isTrained r.base ∧
    (∀ x k out l c, (Index.search r x k out).answer = .error (.labelOutOfRange l c) →
      ∃ nq blank, checkShape r.exact.dimension x k out = .ok nq ∧
        scratch (Count.mul nq (candidateCount r.factor k)) = .ok blank ∧
        (Index.search r.base x (candidateCount r.factor k) blank).answer =
          .error (.labelOutOfRange l c)) ∧
    ∀ n, Lawful (@Tower.Reachable n) ∧ ∀ t : Tower Stock n, t.Reachable → FindsInRange t := by
  obtain ⟨hgood, hstep⟩ := h.inStep hlaw hb
  refine ⟨hstep.count, h.vectors, hstep.trained, fun x k out l c herror => ?_, fun n =>
    ⟨Tower.Reachable.lawful n, fun t ht => ht.aligned.findsInRange ht.sound_core⟩⟩
  refine search_labelOutOfRange (fun y width blank hout hok => ?_) herror
  rw [← hstep.count] at hout ⊢
  exact hlaw.found r.base y width blank hgood hout hok

/-- A refinement of a refinement, after a batch, a refused batch and a refused factor. -/
theorem keeps_in_step_refused :
    let empty : Flat := ⟨⟨2, #[], by decide, by decide⟩, .innerProduct⟩
    let inner : Refined (Tower Stock 0) := ⟨Sum.inl empty, empty, .one, true⟩
    let added : Refined (Tower Stock 1) :=
      (Index.add (⟨inner, empty, .one, true⟩ : Refined (Tower Stock 1)) #[.one, .zero]).state
    let r : Refined (Tower Stock 1) := ((Index.add added #[.one]).state.setFactor .zero).state
    @Tower.Reachable 1 inner ∧ Run (β := Tower Stock 1) inner r [#[.one, .zero]] ∧
      Index.count r.base = r.exact.count ∧ r.exact.vectors.toList = [.one, .zero] := by
  intro empty inner added r
  have hempty : Flat.empty 2 .innerProduct = .ok empty := rfl
  have hbase : Refined.ofBase (β := Tower Stock 0) (Sum.inl empty) {} = .ok inner := by
    dsimp only [inner, empty]
    rfl
  have hinner : @Tower.Reachable 1 inner := .refine (.flat hempty) hbase
  have houter : Refined.ofBase (β := Tower Stock 1) inner {} = .ok ⟨inner, empty, .one, true⟩ := by
    dsimp only [inner, empty]
    rfl
  have hadded : Run (β := Tower Stock 1) inner added [#[.one, .zero]] :=
    .add _ (.ofBase houter) (by decide +kernel)
  have hrun : Run (β := Tower Stock 1) inner r [#[.one, .zero]] :=
    .setFactor .zero (.addFails hadded (e := .dimensionMismatch 2 1) (by decide +kernel))
  obtain ⟨hcount, hvectors, -⟩ := hrun.keeps_in_step (Tower.Reachable.lawful 1) hinner
  exact ⟨hinner, hrun, hcount, hvectors⟩

/-- The inner refinement keeps to the contract over a grid with a label of its own: it fails rather
than name a vector that is not there. That failure is what the search of the outer one reports. -/
theorem stray_label_handed_on :
    let empty : Flat := ⟨⟨1, #[], by decide, by decide⟩, .l2⟩
    let inner : Refined Grid := ⟨⟨empty, .zero, true, true, some 7⟩, empty, .one, true⟩
    let r : Refined (Refined Grid) := (Index.add ⟨inner, empty, .one, true⟩ #[.one]).state
    Lawful (fun _ : Refined Grid => True) ∧ Run inner r [#[.one]] ∧
      (Index.search r #[.zero] 1 ⟨#[.zero], #[noLabel]⟩).answer =
        .error (.labelOutOfRange 7 1) := by
  intro empty inner r
  have houter : Refined.ofBase inner {} = .ok ⟨inner, empty, .one, true⟩ := by
    dsimp only [inner, empty]
    rfl
  exact ⟨lawful Grid.updates, .add _ (.ofBase houter) (by decide +kernel), by decide +kernel⟩

end Refined

end Neighbors
