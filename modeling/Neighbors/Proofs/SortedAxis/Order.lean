import Neighbors.Index.SortedAxis
import Neighbors.Proofs.Rows

/-!
# The order of a sorted index is never stale unnoticed

`Argsort values n order`: `order` sorts the first `n` of the values. In every state that operations
lead to (`Reachable`), the order of an index sorts as many of the first values as it has entries:
an addition puts new values behind those, a removal drops the whole order. So the test of the two
lengths is enough (`Reachable.order_of_search`).
-/

namespace Neighbors

/-- `order` has the positions of the first `n` values, in ascending order of all bit patterns. -/
structure Argsort (values : Floats) (n : Nat) (order : Array Nat) : Prop where
  perm : order.toList.Perm (List.range n)
  ascending : order.toList.Pairwise fun i j =>
    (values.getD i .zero).totalKey ≤ (values.getD j .zero).totalKey

namespace Argsort

variable {values : Floats} {n : Nat} {order : Array Nat}

theorem empty (values : Floats) : Argsort values 0 #[] := ⟨.refl _, .nil⟩

theorem size_eq (h : Argsort values n order) : order.size = n := by
  simpa using h.perm.length_eq

theorem lt_of_mem (h : Argsort values n order) {i : Nat} (hi : i ∈ order.toList) : i < n :=
  List.mem_range.1 (h.perm.mem_iff.1 hi)

theorem append (h : Argsort values n order) (hn : n ≤ values.size) (x : Floats) :
    Argsort (values ++ x) n order where
  perm := h.perm
  ascending := by
    have hget : ∀ i ∈ order.toList, (values ++ x).getD i .zero = values.getD i .zero := by
      intro i hi
      have hlt : i < values.size := Nat.lt_of_lt_of_le (h.lt_of_mem hi) hn
      simp [Array.getD_eq_getD_getElem?, Array.getElem?_append, hlt]
    refine h.ascending.imp_of_mem fun hi hj hle => ?_
    rwa [hget _ hi, hget _ hj]

theorem sortedOrder (values : Floats) : Argsort values values.size (sortedOrder values) where
  perm := by simpa [Neighbors.sortedOrder] using List.mergeSort_perm _ _
  ascending := by
    have hsort : (Neighbors.sortedOrder values).toList.Pairwise fun i j =>
        decide ((values.getD i .zero).totalKey ≤ (values.getD j .zero).totalKey) :=
      List.pairwise_mergeSort
        (fun i j l hij hjl => by simp only [decide_eq_true_eq] at *; exact Int.le_trans hij hjl)
        (fun i j => by simpa using Int.le_total _ _) (List.range values.size)
    simpa only [decide_eq_true_eq] using hsort

end Argsort

namespace SortedAxis

/-- The states that operations lead to, failing ones included. A sort may leave equal values in any
order, so the order can change to another one of the same values at any time. -/
inductive Reachable : SortedAxis → Prop where
  | empty (settings : SortedAxisSettings) : Reachable (.empty settings)
  | add {s : SortedAxis} (x : Floats) : Reachable s → Reachable (Index.add s x).state
  | remove {s : SortedAxis} (selector : Selector) :
      Reachable s → Reachable (Index.removeIds s selector).state
  | reset {s : SortedAxis} : Reachable s → Reachable (Index.reset s)
  | update {s : SortedAxis} : Reachable s → Reachable s.update
  | resort {s : SortedAxis} {order : Array Nat} :
      Reachable s → Argsort s.values s.order.size order → Reachable { s with order }

/-- The order sorts the first values, and in continuous mode all of them. -/
structure Ordered (s : SortedAxis) : Prop where
  argsort : Argsort s.values s.order.size s.order
  le_count : s.order.size ≤ s.count
  continuous : s.settings.continuousUpdate = true → s.order.size = s.count

theorem count_flat (s : SortedAxis) : s.flat.count = s.count := Nat.div_one _

theorem isCurrent_iff (s : SortedAxis) : s.isCurrent = true ↔ s.order.size = s.count := by
  simp [isCurrent]

theorem Ordered.update {s : SortedAxis} : Ordered s.update := by
  have hsort := Argsort.sortedOrder s.values
  have hsize : s.update.order.size = s.values.size := hsort.size_eq
  exact ⟨by rw [hsize]; exact hsort, Nat.le_of_eq hsize, fun _ => hsize⟩

/-- Whatever the order was, sorting mends it; without sorting the rest has to be in order. -/
theorem Ordered.updateIfContinuous {s : SortedAxis} (h : Argsort s.values s.order.size s.order)
    (hle : s.order.size ≤ s.count) : Ordered s.updateIfContinuous := by
  unfold SortedAxis.updateIfContinuous
  split
  · exact .update
  · next hc => exact ⟨h, hle, fun hc' => absurd hc' hc⟩

theorem add_state (s : SortedAxis) (x : Floats) : (Index.add s x).state = s.add x := by
  show (Outcome.replace s ((rowCount 1 x).map fun _ => s.add x)).state = _
  rw [rowCount_one]
  rfl

theorem remove_state (s : SortedAxis) (selector : Selector) :
    (Index.removeIds s selector).state = (s.remove selector).1 := rfl

theorem Ordered.add {s : SortedAxis} (h : Ordered s) (x : Floats) : Ordered (s.add x) := by
  refine .updateIfContinuous (h.argsort.append h.le_count x) ?_
  show s.order.size ≤ (s.values ++ x).size
  rw [Array.size_append]
  exact Nat.le_trans h.le_count (Nat.le_add_right _ _)

theorem Ordered.remove {s : SortedAxis} (h : Ordered s) (selector : Selector) :
    Ordered (s.remove selector).1 := by
  simp only [SortedAxis.remove]
  split
  · exact h
  · exact .updateIfContinuous (.empty _) (Nat.zero_le _)

theorem Reachable.ordered {s : SortedAxis} (h : Reachable s) : Ordered s := by
  induction h with
  | empty settings => exact ⟨.empty _, Nat.le_refl _, fun _ => rfl⟩
  | add x _ ih => rw [add_state]; exact ih.add x
  | remove selector _ ih => rw [remove_state]; exact ih.remove selector
  | reset _ ih => exact ⟨.empty _, Nat.le_refl _, fun _ => rfl⟩
  | update _ ih => exact .update
  | resort _ hsort ih =>
    have hsize := hsort.size_eq
    exact ⟨by rw [hsize]; exact hsort, by rw [hsize]; exact ih.le_count,
      fun hc => hsize.trans (ih.continuous hc)⟩

/-! ## What a search relies on -/

theorem search_answer (s : SortedAxis) (x : Floats) (k : Nat) (out : Slots) :
    (Index.search s x k out).answer =
      if s.isCurrent then (Index.checkShape 1 x k out).map fun _ => ()
      else .error (.permutationStale s.order.size s.count) := by
  show (Outcome.replace out (s.search x k out)).answer = _
  unfold SortedAxis.search
  by_cases hc : s.isCurrent = true
  · simp only [hc, Bool.not_true, Bool.false_eq_true, ↓reduceIte]
    cases Index.checkShape 1 x k out <;> rfl
  · simp only [hc, Bool.not_false, ↓reduceIte]
    rfl

theorem Ordered.argsort_of_isCurrent {s : SortedAxis} (h : Ordered s) (hc : s.isCurrent = true) :
    Argsort s.values s.count s.order := by
  rw [← (isCurrent_iff s).1 hc]
  exact h.argsort

theorem isCurrent_of_search {s : SortedAxis} {x : Floats} {k : Nat} {out : Slots}
    (h : (Index.search s x k out).answer = .ok ()) : s.isCurrent = true := by
  by_contra hc
  rw [search_answer, if_neg hc] at h
  cases h

theorem checkShape_of_search {s : SortedAxis} {x : Floats} {k : Nat} {out : Slots}
    (h : (Index.search s x k out).answer = .ok ()) : ∃ nq, Index.checkShape 1 x k out = .ok nq := by
  have hc := isCurrent_of_search h
  rw [search_answer, if_pos hc] at h
  cases hshape : Index.checkShape 1 x k out with
  | ok nq => exact ⟨nq, rfl⟩
  | error e => rw [hshape] at h; cases h

/-- In every reachable state the order sorts a beginning of the values. If the lengths agree it
sorts all of them, so no search answers from a stale order; in continuous mode none finds one. -/
theorem Reachable.order_of_search {s : SortedAxis} (h : Reachable s) :
    (Argsort s.values s.order.size s.order ∧ s.order.size ≤ s.count) ∧
    (s.isCurrent = true → Argsort s.values s.count s.order) ∧
    (∀ x k out, (Index.search s x k out).answer = .ok () → Argsort s.values s.count s.order) ∧
    (s.settings.continuousUpdate = true → ∀ x k out entries count,
      (Index.search s x k out).answer ≠ .error (.permutationStale entries count)) := by
  have ho := h.ordered
  refine ⟨⟨ho.argsort, ho.le_count⟩, ho.argsort_of_isCurrent,
    fun x k out hok => ho.argsort_of_isCurrent (isCurrent_of_search hok), ?_⟩
  intro hcont x k out entries count hstale
  rw [search_answer, if_pos ((isCurrent_iff s).2 (ho.continuous hcont))] at hstale
  cases hshape : Index.checkShape 1 x k out with
  | ok nq => rw [hshape] at hstale; cases hstale
  | error e =>
    rw [hshape] at hstale
    cases hstale
    rcases Index.checkShape_error hshape with he | ⟨expected, actual, he⟩
    · cases he
    · cases he

/-- A removal and an addition that bring the length back leave no order behind. In continuous mode
the order is up to date at once, and a search succeeds. -/
theorem order_of_search_same_count :
    let before (settings : SortedAxisSettings) :=
      (Index.add (empty settings) #[.one, .zero]).state.update
    let after (settings : SortedAxisSettings) :=
      (Index.add (Index.removeIds (before settings) (.range 0 1)).state #[.negZero]).state
    let manual := after ⟨false, 0⟩
    let continuous := after {}
    let search := Index.search continuous #[.one] 1 ⟨#[.nan], #[7]⟩
    (manual.count = (before ⟨false, 0⟩).count ∧ manual.order = #[] ∧
      Argsort manual.values manual.order.size manual.order ∧
      (manual.isCurrent = true → Argsort manual.values manual.count manual.order)) ∧
    continuous.order.size = 2 ∧ search.answer = .ok () ∧
      Argsort continuous.values continuous.count continuous.order ∧
      ∀ entries count, search.answer ≠ .error (.permutationStale entries count) := by
  intro before after manual continuous search
  have hs : ∀ settings, Reachable (after settings) := fun settings =>
    .add _ (.remove _ (.update (.add _ (.empty settings))))
  obtain ⟨⟨hsort, -⟩, hcurrent, -, -⟩ := (hs ⟨false, 0⟩).order_of_search
  obtain ⟨-, -, hsearched, hnever⟩ := (hs {}).order_of_search
  have hcont : continuous.settings.continuousUpdate = true := by decide
  have hsize : continuous.order.size = continuous.count := (hs {}).ordered.continuous hcont
  have hok : search.answer = .ok () := by
    rw [search_answer, if_pos ((isCurrent_iff _).2 hsize)]
    rfl
  exact ⟨⟨by decide, by decide, hsort, hcurrent⟩, hsize.trans (by decide), hok,
    hsearched _ _ _ hok, hnever hcont _ _ _⟩

end SortedAxis

end Neighbors
