import Neighbors.Index.Refined
import Neighbors.Proofs.Failure
import Neighbors.Proofs.Rows

/-!
# Updates of a refined index

What building, training and adding can do to the two stores of a `Refined` index. The copy changes
only after the base has taken a batch, and then it takes the batch too (`Refined.add_cases`).
-/

namespace Neighbors

theorem Flat.add_of_rowCount (f : Flat) {x : Floats} {n : Nat}
    (h : rowCount f.dimension x = .ok n) :
    ∃ f', f.add x = .ok f' ∧ Index.add f x = .done f' := by
  obtain ⟨-, hwhole, -⟩ := rowCount_eq_ok_iff.1 h
  have hx : x.size % f.storage.dimension = 0 := hwhole
  have hadd : ∃ f', f.add x = .ok f' := by
    unfold Flat.add Storage.append
    rw [dif_pos hx]
    exact ⟨_, rfl⟩
  obtain ⟨f', hf'⟩ := hadd
  refine ⟨f', hf', ?_⟩
  show Outcome.replace f (f.add x) = _
  rw [hf']
  rfl

namespace Refined

variable {β : Type} [Index β] {r : Refined β} {x : Floats}

theorem ofBase_eq_ok {b : β} {settings : RefineSettings} (h : ofBase b settings = .ok r) :
    Index.count b = 0 ∧ ∃ exact,
      Flat.empty (Index.dimension b) (Index.metric b) = .ok exact ∧
        r = ⟨b, exact, settings.factor, Index.isTrained b⟩ := by
  unfold ofBase at h
  obtain ⟨-, -, h⟩ := bind_eq_ok_iff.1 h
  dsimp only at h
  split at h
  · cases h
  · next hcount =>
    obtain ⟨exact, hempty, h⟩ := bind_eq_ok_iff.1 h
    cases h
    exact ⟨not_not.1 hcount, exact, hempty, rfl⟩

/-- All that a training can do. -/
theorem train_cases (r : Refined β) (x : Floats) :
    (∃ e, (Index.train r.base x).answer = .error e ∧
      Index.train r x = .fail e { r with base := (Index.train r.base x).state }) ∨
    ((Index.train r.base x).answer = .ok () ∧
      Index.train r x = .done
        { r with base := (Index.train r.base x).state, trained := true }) := by
  have htrain : Index.train r x = r.train x := rfl
  rw [htrain, Refined.train]
  cases hanswer : (Index.train r.base x).answer with
  | error e => exact .inl ⟨e, rfl, rfl⟩
  | ok u => exact .inr ⟨rfl, rfl⟩

theorem train_base (r : Refined β) (x : Floats) :
    (Index.train r x).state.base = (Index.train r.base x).state := by
  obtain ⟨e, -, htrain⟩ | ⟨-, htrain⟩ := r.train_cases x <;> rw [htrain] <;> rfl

theorem add_of_base {m : Nat} (ht : r.trained = true) (hx : rowCount r.exact.dimension x = .ok m)
    (hbase : (Index.add r.base x).answer = .ok ()) :
    Index.add r x = .done { r with
      base := (Index.add r.base x).state, exact := (Index.add r.exact x).state } := by
  obtain ⟨exact, hexact, hadd⟩ := r.exact.add_of_rowCount hx
  rw [hadd]
  show r.add x = _
  unfold Refined.add
  simp only [ht, Bool.not_true, Bool.false_eq_true, if_false, hx, hbase, hexact]
  rfl

/-- All that an addition can do. -/
theorem add_cases (r : Refined β) (x : Floats) :
    (∃ e, (r.trained = false ∧ e = .notTrained ∨ rowCount r.exact.dimension x = .error e) ∧
      Index.add r x = .fail e r) ∨
    r.trained = true ∧ ∃ n, rowCount r.exact.dimension x = .ok n ∧
      ((∃ e, (Index.add r.base x).answer = .error e ∧
        Index.add r x = .fail e { r with base := (Index.add r.base x).state }) ∨
      ((Index.add r.base x).answer = .ok () ∧
        Index.add r x = .done { r with
          base := (Index.add r.base x).state, exact := (Index.add r.exact x).state })) := by
  have hadd : Index.add r x = r.add x := rfl
  rcases Bool.eq_false_or_eq_true r.trained with ht | ht
  · cases hrows : rowCount r.exact.dimension x with
    | error e =>
      refine .inl ⟨e, .inr rfl, ?_⟩
      rw [hadd, Refined.add, ht, hrows]
      rfl
    | ok n =>
      refine .inr ⟨ht, n, rfl, ?_⟩
      cases hanswer : (Index.add r.base x).answer with
      | error e =>
        refine .inl ⟨e, rfl, ?_⟩
        rw [hadd, Refined.add]
        simp only [ht, hrows, hanswer, Bool.not_true, Bool.false_eq_true, if_false]
      | ok u => exact .inr ⟨rfl, add_of_base ht hrows hanswer⟩
  · refine .inl ⟨_, .inl ⟨ht, rfl⟩, ?_⟩
    rw [hadd, Refined.add, ht]
    rfl

/-- An addition that fails has not got to the copy. -/
theorem add_atomic (h : (Index.add r.base x).Atomic r.base) : (Index.add r x).Atomic r := by
  obtain ⟨e, -, hadd⟩ | ⟨-, n, -, ⟨e, he, hadd⟩ | ⟨-, hadd⟩⟩ := r.add_cases x
  · rw [hadd]
    exact Outcome.atomic_fail e r
  · rw [hadd, h e he]
    exact Outcome.atomic_fail e r
  · rw [hadd]
    exact Outcome.atomic_of_ok rfl

theorem add_base (r : Refined β) (x : Floats) : (Index.add r x).state.base = r.base ∨
    (Index.add r x).state.base = (Index.add r.base x).state := by
  obtain ⟨e, -, hadd⟩ | ⟨-, n, -, ⟨e, -, hadd⟩ | ⟨-, hadd⟩⟩ := r.add_cases x
  · exact .inl (by rw [hadd]; rfl)
  · exact .inr (by rw [hadd]; rfl)
  · exact .inr (by rw [hadd]; rfl)

omit [Index β] in
theorem setFactor_base (r : Refined β) (factor : Binary32) :
    (r.setFactor factor).state.base = r.base := by
  unfold setFactor
  cases RefineSettings.validate ⟨factor⟩ <;> rfl

end Refined

end Neighbors
