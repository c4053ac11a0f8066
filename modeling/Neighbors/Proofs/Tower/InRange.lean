import Neighbors.Proofs.InPlace.Shared

/-!
# Towers stay in their buffers

Whatever operations have led to a tower and whatever a call is given, no step of the call leaves a
buffer, as long as the numbers of slots it asks for have 64 bits (`Reachable.stays_in_range`).
-/

namespace Neighbors

open Index

/-- An index from elsewhere: nothing is known of the labels that it proposes. -/
instance : Steps Grid where

theorem Grid.inRange (g : Grid) : InRange g :=
  ⟨fun _ => rfl, fun _ _ _ _ => rfl, fun _ _ => rfl, fun _ => rfl, fun _ _ => rfl,
    fun _ _ _ => rfl⟩

namespace Tower

/-- In every reachable tower each operation, done step by step with every index, range and length
checked, takes all of its steps and comes to the operation itself. The arguments are arbitrary: bit
patterns, labels, numbers of slots and lengths of buffers. All that is asked is that the numbers of
slots have 64 bits, and of vectors reconstructed one by one that there are labels for all. The same
holds of a refinement of any index that is in range itself, whatever labels it proposes, and of what
only some indexes can do. -/
theorem Reachable.stays_in_range {n : Nat} {t : Tower Stock n} (h : Reachable t) :
    InRange t ∧
    (∀ x k, Sized.fits t x k →
      searchKnn? t x k = some (searchKnn t x k) ∧ assign? t x k = some (assign t x k) ∧
      (x.size / dimension t * k * dimension t ≤ Count.limit → ∀ out vectors,
        searchAndReconstruct? t x k out vectors =
          some (searchAndReconstruct t x k out vectors))) ∧
    (∀ x label residual,
      computeResidual? t x label residual = some (computeResidual t x label residual)) ∧
    ((count t : Int) ≤ Label.greatest + 1 → ∀ first m out,
      reconstructEach? (dimension t) (count t) (Steps.reconstruct? t) first m out =
        some (reconstructEach (dimension t) (count t) (reconstruct t) first m out)) ∧
    (∀ s, core t = .inr (.inr s) → s.update? = some s.update) ∧
    (∀ f : Flat, (∀ selector, f.remove? selector = some (f.remove selector)) ∧
      ∀ x k out, x.size / f.dimension * k ≤ Count.limit →
        f.rescore? x k out = some (f.rescore x k out)) ∧
    ∀ {β : Type} [Index β] [Sized β] [Steps β] (r : Refined β), InRange r.base → InRange r := by
  have hrange := Tower.inRange h.sound_core.inRange
  have hfills := fillsBuffers t
  refine ⟨hrange, fun x k hfits => ⟨hrange.searchKnn hfits, hrange.assign hfits,
    fun hd out vectors => hrange.searchAndReconstruct hfills hfits hd out vectors⟩,
    hrange.computeResidual, hrange.reconstructEach hfills, fun s _ => s.update?_eq,
    fun f => ⟨f.remove?_eq, ?_⟩, fun r hbase => Refined.inRange hbase⟩
  exact fun x k out hslots => f.rescore?_eq_rescore out hslots

/-- Slots with a NaN and a label of old are overwritten; a stray label of a foreign base is found
before it is followed. -/
theorem stays_in_range_stray :
    let empty : Flat := ⟨⟨1, #[], by decide, by decide⟩, .l2⟩
    let r : Refined (Tower Stock 0) := ⟨.inl empty, empty, .ofNat 2, true⟩
    let t : Tower Stock 1 := (Index.add r #[.one, .zero]).state
    let g : Refined Grid :=
      (Index.add (⟨⟨empty, .zero, true, true, some 7⟩, empty, .one, true⟩ : Refined Grid)
        #[.one]).state
    let out : Slots := ⟨#[.nan], #[7]⟩
    Reachable t ∧ Sized.fits t #[.one] 1 ∧
      (∃ o, Steps.search? t #[.one] 1 out = some o ∧ o.answer = .ok () ∧
        o.state = ⟨#[.zero], #[0]⟩) ∧
      ∃ o, Steps.search? g #[.one] 1 out = some o ∧ o.answer = .error (.labelOutOfRange 7 1) ∧
        o.state = out := by
  intro empty r t g out
  have hbase : Refined.ofBase (β := Tower Stock 0) (.inl empty) ⟨.ofNat 2⟩ = .ok r := by
    dsimp only [r, empty]
    rfl
  have hempty : Flat.empty 1 .l2 = .ok empty := rfl
  have ht : Reachable t := .add _ (.refine (.flat hempty) hbase)
  obtain ⟨hrange, -, -, -, -, -, hforeign⟩ := Reachable.stays_in_range ht
  have hfits : Sized.fits t #[.one] 1 :=
    ⟨by decide +kernel, by decide +kernel, (Stock.fits_iff ..).2 (by decide +kernel)⟩
  have hfits' : Sized.fits g #[.one] 1 := by
    refine ⟨by decide +kernel, by decide +kernel, ?_⟩
    show (_ : Nat) ≤ Count.limit
    decide +kernel
  have hg := hforeign g (Grid.inRange _)
  exact ⟨ht, hfits, ⟨_, hrange.search _ _ _ hfits, by decide +kernel, by decide +kernel⟩,
    _, hg.search _ _ _ hfits', by decide +kernel, by decide +kernel⟩

end Tower

end Neighbors
