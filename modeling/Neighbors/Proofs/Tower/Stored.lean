import Neighbors.Proofs.RowRange
import Neighbors.Proofs.Tower.Alike

/-!
# The vectors in a tower

`Tower.stored`: the vectors of a tower as a flat index, which is what it reconstructs from
(`Tower.readsFrom`). In a reachable tower over a flat or a sorted index there are no others: every
copy is that one, and so are the vectors under all refinements (`Tower.Reachable.copies`).
-/

namespace Neighbors

open Index

/-! ## What is reconstructed -/

namespace Index

variable {σ : Type} [Index σ] {s : σ} {f : Flat}

/-- The index reconstructs what a flat one with as many vectors does. -/
structure ReadsFrom (s : σ) (f : Flat) : Prop where
  dimension : Index.dimension s = f.dimension
  count : Index.count s = f.count
  reconstruct : ∀ l out, Index.reconstruct s l out = Index.reconstruct f l out

/-- What a stored label is reconstructed to does not depend on what the buffer held. -/
theorem ReadsFrom.reconstruct_eq (h : ReadsFrom s f)
    (hfits : Index.count s * Index.dimension s ≤ Count.limit) {l : Label}
    (hl : l.isStored (Index.count s) = true) {blank row : Floats}
    (hblank : blank.size = Index.dimension s) (hrow : row.size = Index.dimension s) :
    Index.reconstruct s l row = Index.reconstruct s l blank := by
  rw [h.count] at hl hfits
  rw [h.dimension] at hfits hblank hrow
  rw [← f.size_vectors] at hfits
  obtain ⟨hpos, hlt⟩ := Label.isStored_iff.1 hl
  obtain ⟨j, rfl⟩ := Int.eq_ofNat_of_zero_le hpos
  have hj : j < f.count := Int.ofNat_lt.1 hlt
  rw [h.reconstruct, h.reconstruct, Flat.reconstruct_of_lt hfits hj hrow,
    Flat.reconstruct_of_lt hfits hj hblank]

end Index

def Stock.stored : Stock → Flat
  | .inl f => f
  | .inr (.inl s) => s.flat
  | .inr (.inr s) => s.flat

theorem Stock.readsFrom (b : Stock) : ReadsFrom b b.stored := by
  obtain f | s | s := b
  · exact ⟨rfl, rfl, fun _ _ => rfl⟩
  · exact ⟨rfl, rfl, fun _ _ => rfl⟩
  · exact ⟨rfl, s.count_flat.symm, fun _ _ => rfl⟩

/-! ## One set of vectors -/

/-- The index ranks by shifted distances, which a flat one does not have. -/
def Stock.IsShifted : Stock → Prop
  | .inr (.inl _) => True
  | _ => False

namespace Stock.IsShifted

variable {b : Stock}

theorem eq_shifted (h : IsShifted b) : ∃ s, b = .inr (.inl s) := by
  obtain _ | s | _ := b
  · exact h.elim
  · exact ⟨s, rfl⟩
  · exact h.elim

theorem train (h : IsShifted b) (x : Floats) : IsShifted (Index.train b x).state := by
  obtain ⟨s, rfl⟩ := h.eq_shifted
  trivial

theorem add (h : IsShifted b) (x : Floats) : IsShifted (Index.add b x).state := by
  obtain ⟨s, rfl⟩ := h.eq_shifted
  trivial

theorem addWithIds (h : IsShifted b) (x : Floats) (ids : Array Label) :
    IsShifted (Index.addWithIds b x ids).state := by
  obtain ⟨s, rfl⟩ := h.eq_shifted
  trivial

theorem removeIds (h : IsShifted b) (selector : Selector) :
    IsShifted (Index.removeIds b selector).state := by
  obtain ⟨s, rfl⟩ := h.eq_shifted
  trivial

theorem reset (h : IsShifted b) : IsShifted (Index.reset b) := by
  obtain ⟨s, rfl⟩ := h.eq_shifted
  trivial

end Stock.IsShifted

namespace Tower

variable {n : Nat} {f : Flat} {t : Tower Stock n}

def stored : {n : Nat} → Tower Stock n → Flat
  | 0, b => Stock.stored b
  | n + 1, t =>
    let r : Refined (Tower Stock n) := t
    r.exact

theorem readsFrom (t : Tower Stock n) : ReadsFrom t (stored t) := by
  cases n with
  | zero => exact Stock.readsFrom t
  | succ n => exact ⟨rfl, rfl, fun _ _ => rfl⟩

namespace Copies

theorem eq_stored (h : Copies f t) : f = stored t := by
  cases n with
  | zero =>
    obtain g | s | s := t
    · exact (show g = f from h).symm
    · exact h.elim
    · exact h.2.symm
  | succ n => exact h.1.symm

theorem train (h : Copies f t) (x : Floats) : Copies f (Index.train t x).state := by
  induction n with
  | zero =>
    obtain g | s | s := t
    · show (Outcome.replace g ((rowCount g.dimension x).map fun _ => g)).state = f
      cases rowCount g.dimension x <;> exact h
    · exact h.elim
    · show SortedAxis.Reachable (Outcome.replace s ((rowCount 1 x).map fun _ => s)).state ∧
        (Outcome.replace s ((rowCount 1 x).map fun _ => s)).state.flat = f
      cases rowCount 1 x <;> exact h
  | succ n ih =>
    obtain ⟨hexact, ht, hbase⟩ := h
    obtain ⟨e, -, htrain⟩ | ⟨-, htrain⟩ := Refined.train_cases (β := Tower Stock n) t x
    · rw [show Index.train t x = _ from htrain]
      exact ⟨hexact, ht, ih hbase⟩
    · rw [show Index.train t x = _ from htrain]
      exact ⟨hexact, rfl, ih hbase⟩

theorem addWithIds (h : Copies f t) (x : Floats) (ids : Array Label) :
    Copies f (Index.addWithIds t x ids).state := by
  cases n with
  | zero =>
    obtain g | s | s := t
    · exact h
    · exact h.elim
    · exact h
  | succ n => exact h

theorem removeIds (h : Copies f t) (selector : Selector) :
    ∃ f', Copies f' (Index.removeIds t selector).state := by
  cases n with
  | zero =>
    obtain g | s | s := t
    · exact ⟨_, rfl⟩
    · exact h.elim
    · exact ⟨_, SortedAxis.Reachable.remove selector h.1, rfl⟩
  | succ n => exact ⟨f, h⟩

theorem setFactor {r : Refined (Tower Stock n)} (h : @Copies f (n + 1) r) (factor : Binary32) :
    @Copies f (n + 1) (r.setFactor factor).state := by
  unfold Refined.setFactor
  cases RefineSettings.validate ⟨factor⟩ <;> exact h

theorem update {s : SortedAxis} (h : @Copies f 0 (.inr (.inr s))) :
    @Copies f 0 (.inr (.inr s.update)) :=
  ⟨.update h.1, h.2⟩

end Copies

/-- An index that is not shifted has one set of vectors, however many refinements keep a copy. -/
theorem Reachable.shifted_or_copies (h : Reachable t) :
    (core t).IsShifted ∨ ∃ f, Copies f t := by
  induction h with
  | @flat d metric f _ => exact .inr ⟨f, rfl⟩
  | shifted _ => exact .inl trivial
  | sorted settings => exact .inr ⟨_, .empty settings, rfl⟩
  | refine _ hr ih =>
    rcases ih with hs | ⟨f, hf⟩
    · obtain ⟨-, exact, -, rfl⟩ := Refined.ofBase_eq_ok hr
      exact .inl hs
    · exact .inr ⟨f, hf.refine hr⟩
  | base _ ih =>
    rcases ih with hs | ⟨f, hf⟩
    · exact .inl hs
    · exact .inr ⟨f, hf.2.2⟩
  | train x _ ih =>
    rcases ih with hs | ⟨f, hf⟩
    · rw [core_train]
      exact .inl (hs.train x)
    · exact .inr ⟨f, hf.train x⟩
  | @add n t x _ ih =>
    rcases ih with hs | ⟨f, hf⟩
    · rcases core_add t x with hcore | hcore <;> rw [hcore]
      · exact .inl hs
      · exact .inl (hs.add x)
    · exact .inr ⟨_, hf.add x⟩
  | @addWithIds n t x ids _ ih =>
    rcases ih with hs | ⟨f, hf⟩
    · rcases core_addWithIds t x ids with hcore | hcore <;> rw [hcore]
      · exact .inl hs
      · exact .inl (hs.addWithIds x ids)
    · exact .inr ⟨f, hf.addWithIds x ids⟩
  | @removeIds n t selector _ ih =>
    rcases ih with hs | ⟨f, hf⟩
    · rcases core_removeIds t selector with hcore | hcore <;> rw [hcore]
      · exact .inl hs
      · exact .inl (hs.removeIds selector)
    · exact .inr (hf.removeIds selector)
  | reset _ ih =>
    rcases ih with hs | ⟨f, hf⟩
    · rw [core_reset]
      exact .inl hs.reset
    · exact .inr ⟨_, hf.reset⟩
  | @setFactor n r factor _ ih =>
    rcases ih with hs | ⟨f, hf⟩
    · have hcore := congrArg core (r.setFactor_base factor)
      exact .inl (hcore ▸ hs)
    · exact .inr ⟨f, hf.setFactor factor⟩
  | setShift _ _ => exact .inl trivial
  | update _ ih =>
    rcases ih with hs | ⟨f, hf⟩
    · exact hs.elim
    · exact .inr ⟨f, hf.update⟩
  | resort _ hcore hsort ih =>
    rcases ih with hs | ⟨f, hf⟩
    · rw [hcore] at hs
      exact hs.elim
    · exact .inr ⟨f, hf.resort hcore hsort⟩

theorem Reachable.copies (h : Reachable t) (hcore : ¬(core t).IsShifted) : Copies (stored t) t := by
  obtain ⟨f, hf⟩ := h.shifted_or_copies.resolve_left hcore
  exact hf.eq_stored ▸ hf

end Tower

end Neighbors
