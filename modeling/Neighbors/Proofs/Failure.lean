import Neighbors.Index.Grid
import Mathlib.Data.List.Basic

/-!
# What a call that fails leaves behind

`Outcome.Atomic`: a call that fails leaves what was there before it. `Index.KeepsBuffers` says so of
the search and the reconstruction of an index. What every index does with those two keeps to it as
well, except that a search with reconstruction writes its slots before it looks at the labels in
them: if one of these cannot be reconstructed the slots are lost (`KeepsBuffers.shared_on_error`).
-/

namespace Neighbors

/-! ## Calls one after the other -/

section Except

variable {ε α β : Type} {e : ε}

theorem bind_eq_error_iff {x : Except ε α} {f : α → Except ε β} :
    (x >>= f) = .error e ↔ x = .error e ∨ ∃ a, x = .ok a ∧ f a = .error e := by
  cases x with
  | error e' => simp [bind, Except.bind]
  | ok a => simp [bind, Except.bind]

theorem bind_eq_ok_iff {x : Except ε α} {f : α → Except ε β} {b : β} :
    (x >>= f) = .ok b ↔ ∃ a, x = .ok a ∧ f a = .ok b := by
  cases x with
  | error e => simp [bind, Except.bind]
  | ok a => simp [bind, Except.bind]

theorem map_eq_error_iff {x : Except ε α} {f : α → β} : x.map f = .error e ↔ x = .error e := by
  cases x with
  | error e' => simp [Except.map]
  | ok a => simp [Except.map]

theorem map_eq_ok_iff {x : Except ε α} {f : α → β} {b : β} :
    x.map f = .ok b ↔ ∃ a, x = .ok a ∧ f a = b := by
  cases x with
  | error e => simp [Except.map]
  | ok a => simp [Except.map]

theorem exists_of_mapM_error {f : α → Except ε β} {l : List α} (h : l.mapM f = .error e) :
    ∃ a ∈ l, f a = .error e := by
  induction l with
  | nil => cases h
  | cons a l ih =>
    rw [List.mapM_cons] at h
    rcases bind_eq_error_iff.1 h with ha | ⟨b, -, hrest⟩
    · exact ⟨a, List.mem_cons_self, ha⟩
    · rcases bind_eq_error_iff.1 hrest with hl | ⟨bs, -, hpure⟩
      · obtain ⟨c, hc, hce⟩ := ih hl
        exact ⟨c, List.mem_cons_of_mem a hc, hce⟩
      · cases hpure

end Except

namespace Outcome

variable {σ τ α : Type} {old : σ}

/-- If the call fails, it leaves `old`. -/
def Atomic (o : Outcome σ α) (old : σ) : Prop := ∀ e, o.answer = .error e → o.state = old

theorem eq_done {o : Outcome σ Unit} (h : o.answer = .ok ()) : o = done o.state := by
  cases o
  cases h
  rfl

theorem eq_ok_of_replace {r : Except Error σ} (h : (replace old r).answer = .ok ()) :
    r = .ok (replace old r).state := by
  cases r with
  | error e => cases h
  | ok state => rfl

theorem atomic_of_ok {o : Outcome σ α} {a : α} (h : o.answer = .ok a) : o.Atomic old := by
  intro e he
  rw [h] at he
  cases he

theorem atomic_fail (error : Error) (old : σ) : (fail error old : Outcome σ α).Atomic old :=
  fun _ _ => rfl

theorem atomic_replace (old : σ) (r : Except Error σ) : (replace old r).Atomic old := by
  cases r with
  | ok state => exact atomic_of_ok rfl
  | error e => exact atomic_fail e old

theorem Atomic.mapState {o : Outcome σ α} (h : o.Atomic old) (f : σ → τ) :
    (o.mapState f).Atomic (f old) :=
  fun e he => congrArg f (h e he)

end Outcome

namespace Index

theorem collectRows_error {reconstruct : Label → Floats → Outcome Floats Unit} {d : Nat}
    {blank : Binary32} {labels : List Label} {e : Error}
    (h : collectRows reconstruct d blank labels = .error e) :
    ∃ l ∈ labels, l ≠ noLabel ∧ (reconstruct l (.replicate d blank)).answer = .error e := by
  rcases bind_eq_error_iff.1 h with hrows | ⟨rows, -, hpure⟩
  · obtain ⟨l, hl, hrow⟩ := exists_of_mapM_error hrows
    refine ⟨l, hl, ?_⟩
    dsimp only at hrow
    split at hrow
    · cases hrow
    · next hne => exact ⟨hne, map_eq_error_iff.1 hrow⟩
  · cases hpure

theorem stageRows_error {reconstruct : Label → Floats → Outcome Floats Unit} {d size : Nat}
    {labels : List Label} {e : Error} (h : stageRows reconstruct d size labels = .error e) :
    ∃ l ∈ labels, l ≠ noLabel ∧ (reconstruct l (.replicate d .nan)).answer = .error e := by
  obtain ⟨l, hl, hfail⟩ := collectRows_error (map_eq_error_iff.1 h)
  exact ⟨l, List.mem_of_mem_take hl, hfail⟩

/-- A buffer with a row for each label has nothing else. -/
theorem stageRows_eq {reconstruct : Label → Floats → Outcome Floats Unit} {d : Nat} (hd : 0 < d)
    (labels : List Label) : stageRows reconstruct d (labels.length * d) labels =
      collectRows reconstruct d .nan labels := by
  rw [stageRows, Nat.mul_div_cancel _ hd, Nat.mul_mod_left, List.take_length]
  cases collectRows reconstruct d .nan labels with
  | error e => rfl
  | ok rows => simp [Except.map]

variable {σ : Type} [Index σ]

/-- The search and the reconstruction of the index leave their buffers alone when they fail. -/
structure KeepsBuffers (s : σ) : Prop where
  search : ∀ x k out, (Index.search s x k out).Atomic out
  reconstruct : ∀ label out, (Index.reconstruct s label out).Atomic out

/-- What a search with reconstruction fails with once the search itself has succeeded: a label of
the found slots is not stored, or its vector is not to be had. -/
def FailsAfterSearch (s : σ) (found : Slots) (e : Error) : Prop :=
  ∃ l ∈ found.labels, l ≠ noLabel ∧
    (l.isStored (count s) = false ∧ e = .labelOutOfRange l (count s) ∨
      (Index.reconstruct s l (.replicate (dimension s) .nan)).answer = .error e)

variable {s : σ} {x : Floats} {k : Nat} {out : Slots} {vectors : Floats} {e : Error}

/-- All that a search with reconstruction can do. -/
theorem searchAndReconstruct_cases (s : σ) (x : Floats) (k : Nat) (out : Slots) (vectors : Floats) :
    let found := Index.search s x k out
    (∃ e, checkShape (dimension s) x k out = .error e ∧
      searchAndReconstruct s x k out vectors = .fail e (out, vectors)) ∨
    ∃ nq, checkShape (dimension s) x k out = .ok nq ∧
    let size := Count.mul (Count.mul nq k) (dimension s)
    ((vectors.size ≠ size ∧ searchAndReconstruct s x k out vectors =
        .fail (.dimensionMismatch size vectors.size) (out, vectors)) ∨
    (vectors.size = size ∧
    ((∃ e, found.answer = .error e ∧
      searchAndReconstruct s x k out vectors = .fail e (found.state, vectors)) ∨
    (∃ e, found.answer = .ok () ∧ FailsAfterSearch s found.state e ∧
      searchAndReconstruct s x k out vectors = .fail e (found.state, vectors)) ∨
    (∃ rows, found.answer = .ok () ∧
      stageRows (reconstruct s) (dimension s) size found.state.labels.toList = .ok rows ∧
      searchAndReconstruct s x k out vectors = .done (found.state, rows))))) := by
  intro found
  cases hshape : checkShape (dimension s) x k out with
  | error e => exact .inl ⟨e, rfl, by simp only [searchAndReconstruct, hshape]⟩
  | ok nq =>
    refine .inr ⟨nq, rfl, ?_⟩
    intro size
    by_cases hsize : vectors.size = size
    · refine .inr ⟨hsize, ?_⟩
      have hgo : ¬vectors.size ≠ Count.mul (Count.mul nq k) (dimension s) := fun h => h hsize
      cases hfound : found.answer with
      | error e =>
        exact .inl ⟨e, rfl, by simp only [searchAndReconstruct, hshape, if_neg hgo, found, hfound]⟩
      | ok u =>
        right
        cases hstray : found.state.labels.toList.find? fun l =>
            l ≠ noLabel && !l.isStored (count s) with
        | some l =>
          have hl := List.find?_some hstray
          have hmem := Array.mem_toList_iff.1 (List.mem_of_find?_eq_some hstray)
          simp only [decide_not, Bool.and_eq_true, Bool.not_eq_true', decide_eq_false_iff_not] at hl
          refine .inl ⟨_, rfl, ⟨l, hmem, hl.1, .inl ⟨hl.2, rfl⟩⟩, ?_⟩
          simp only [searchAndReconstruct, hshape, if_neg hgo, found, hfound, hstray]
        | none =>
          cases hrows : stageRows (reconstruct s) (dimension s) size
              found.state.labels.toList with
          | error e =>
            obtain ⟨l, hl, hne, hfail⟩ := stageRows_error hrows
            refine .inl ⟨e, rfl, ⟨l, Array.mem_toList_iff.1 hl, hne, .inr hfail⟩, ?_⟩
            simp only [searchAndReconstruct, hshape, if_neg hgo, found, hfound, hstray]
            rw [hrows]
            rfl
          | ok rows =>
            refine .inr ⟨rows, rfl, rfl, ?_⟩
            simp only [searchAndReconstruct, hshape, if_neg hgo, found, hfound, hstray]
            rw [hrows]
            rfl
    · exact .inl ⟨hsize, by simp only [searchAndReconstruct, hshape]; exact if_pos hsize⟩

theorem reconstructEach_atomic (d count : Nat) (reconstruct : Label → Floats → Outcome Floats Unit)
    (first : Label) (n : Nat) (out : Floats) :
    (reconstructEach d count reconstruct first n out).Atomic out := by
  unfold reconstructEach
  exact Outcome.atomic_replace out _

theorem KeepsBuffers.computeResidual_atomic (hs : KeepsBuffers s) (x : Floats) (label : Label)
    (residual : Floats) : (computeResidual s x label residual).Atomic residual := by
  unfold computeResidual
  dsimp only
  split
  · exact Outcome.atomic_fail _ residual
  · split
    · exact Outcome.atomic_fail _ residual
    · split
      · next he =>
        rw [hs.reconstruct label residual _ he]
        exact Outcome.atomic_fail _ residual
      · exact Outcome.atomic_of_ok rfl

theorem KeepsBuffers.searchAndReconstruct_error (hs : KeepsBuffers s)
    (h : (searchAndReconstruct s x k out vectors).answer = .error e) :
    (searchAndReconstruct s x k out vectors).state = (out, vectors) ∨
    ((Index.search s x k out).answer = .ok () ∧
      FailsAfterSearch s (Index.search s x k out).state e ∧
      (searchAndReconstruct s x k out vectors).state =
        ((Index.search s x k out).state, vectors)) := by
  rcases searchAndReconstruct_cases s x k out vectors with ⟨e', -, hr⟩ | ⟨nq, -, ⟨-, hr⟩ |
    ⟨-, ⟨e', hsearch, hr⟩ | ⟨e', hsearch, hafter, hr⟩ | ⟨rows, -, -, hr⟩⟩⟩
  · exact .inl (by rw [hr]; rfl)
  · exact .inl (by rw [hr]; rfl)
  · left
    rw [hr, hs.search x k out e' hsearch]
    rfl
  · right
    rw [hr] at h ⊢
    cases h
    exact ⟨hsearch, hafter, rfl⟩
  · rw [hr] at h
    cases h

/-- Where an index keeps the buffers of a failing search and of a failing reconstruction, so do a
failing reconstruction of several vectors and a failing residual. A search with reconstruction that
fails never writes a vector. It keeps the slots too, unless its search has succeeded: then it leaves
what that wrote, and the cause is a label among them. -/
theorem KeepsBuffers.shared_on_error (hs : KeepsBuffers s) :
    (∀ first n out,
      (reconstructEach (dimension s) (count s) (Index.reconstruct s) first n out).Atomic out) ∧
    (∀ x label residual, (computeResidual s x label residual).Atomic residual) ∧
    ∀ x k out vectors e, (searchAndReconstruct s x k out vectors).answer = .error e →
      (searchAndReconstruct s x k out vectors).state = (out, vectors) ∨
      ((Index.search s x k out).answer = .ok () ∧
        FailsAfterSearch s (Index.search s x k out).state e ∧
        (searchAndReconstruct s x k out vectors).state =
          ((Index.search s x k out).state, vectors)) :=
  ⟨fun first n out => reconstructEach_atomic _ _ _ first n out,
    fun x label residual => hs.computeResidual_atomic x label residual,
    fun _ _ _ _ _ h => hs.searchAndReconstruct_error h⟩

end Index

/-- All that can fail comes before the first slot is written. -/
theorem Flat.rescore_atomic (f : Flat) (x : Floats) (k : Nat) (out : Slots) :
    (f.rescore x k out).Atomic out := by
  unfold rescore
  split
  · exact Outcome.atomic_fail _ out
  · split
    · exact Outcome.atomic_fail _ out
    · exact Outcome.atomic_of_ok rfl

theorem Grid.keepsBuffers (g : Grid) : Index.KeepsBuffers g where
  search x k out := Outcome.atomic_replace out (g.search x k out)
  reconstruct label out := by
    show Outcome.Atomic (if g.reconstructs then Index.reconstruct g.flat label out
      else .fail (.unsupported .reconstruct) out) out
    split
    · exact Outcome.atomic_replace out (g.flat.reconstruct label out)
    · exact Outcome.atomic_fail _ out

/-- An index without reconstruction keeps its buffers, and yet a search with reconstruction that
fails in it leaves the labels it found. -/
theorem Index.shared_on_error_unsupported :
    let g : Grid := ⟨⟨⟨1, #[.one], by decide, by decide⟩, .l2⟩, .zero, true, false, none⟩
    let out : Slots := ⟨#[.zero], #[9]⟩
    let left := searchAndReconstruct g #[.zero] 1 out #[.zero]
    KeepsBuffers g ∧ left.answer = .error (.unsupported .reconstruct) ∧
      left.state = (Index.search g #[.zero] 1 out |>.state, #[.zero]) ∧ left.state.1 ≠ out := by
  intro g out left
  have hanswer : left.answer = .error (.unsupported .reconstruct) := by decide +kernel
  have hslots : left.state.1.labels = #[0] := by decide +kernel
  have hout : left.state.1 ≠ out := fun h => by
    rw [h] at hslots
    exact absurd hslots (by decide)
  refine ⟨g.keepsBuffers, hanswer, ?_, hout⟩
  rcases g.keepsBuffers.shared_on_error.2.2 _ _ _ _ _ hanswer with hstate | ⟨-, -, hstate⟩
  · exact absurd (congrArg Prod.fst hstate) hout
  · exact hstate

end Neighbors
