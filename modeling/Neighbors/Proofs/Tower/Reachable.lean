import Neighbors.Index.Sum
import Neighbors.Proofs.Refined.Updates
import Neighbors.Proofs.SortedAxis.Order

/-!
# Reachable towers

`Tower.Reachable`: the states that operations lead to, failing ones included, of a stock index under
any number of refinements. An operation on a tower passes on to the index under all refinements,
`Tower.core`, or leaves it alone (`core_train`, `core_add`, …), so that a sorted one stays reachable
by itself (`Reachable.sound_core`).
-/

namespace Neighbors

/-! ## The index under all refinements -/

namespace Tower

variable {β : Type} {n : Nat}

def core : {n : Nat} → Tower β n → β
  | 0, b => b
  | _ + 1, r => core (Refined.base r)

/-- The same refinements over another index. -/
def setCore (b : β) : {n : Nat} → Tower β n → Tower β n
  | 0, _ => b
  | n + 1, t =>
    let r : Refined (Tower β n) := t
    show Refined (Tower β n) from { r with base := setCore b r.base }

@[simp] theorem core_setCore (b : β) (t : Tower β n) : core (setCore b t) = b := by
  induction n with
  | zero => rfl
  | succ n ih => exact ih (Refined.base t)

variable [Index β]

theorem core_train (t : Tower β n) (x : Floats) :
    core (Index.train t x).state = (Index.train (core t) x).state := by
  induction n with
  | zero => rfl
  | succ n ih =>
    have hbase := Refined.train_base (β := Tower β n) t x
    exact (congrArg core hbase).trans (ih (Refined.base t))

theorem core_add (t : Tower β n) (x : Floats) : core (Index.add t x).state = core t ∨
    core (Index.add t x).state = (Index.add (core t) x).state := by
  induction n with
  | zero => exact .inr rfl
  | succ n ih =>
    rcases Refined.add_base (β := Tower β n) t x with hbase | hbase
    · exact .inl (congrArg (core (n := n)) hbase)
    · have hcore : core (Index.add t x).state = core (Index.add (Refined.base t) x).state :=
        congrArg core hbase
      rw [hcore]
      exact ih (Refined.base t)

theorem core_addWithIds (t : Tower β n) (x : Floats) (ids : Array Label) :
    core (Index.addWithIds t x ids).state = core t ∨
      core (Index.addWithIds t x ids).state = (Index.addWithIds (core t) x ids).state := by
  cases n with
  | zero => exact .inr rfl
  | succ n => exact .inl rfl

theorem core_removeIds (t : Tower β n) (selector : Selector) :
    core (Index.removeIds t selector).state = core t ∨
      core (Index.removeIds t selector).state = (Index.removeIds (core t) selector).state := by
  cases n with
  | zero => exact .inr rfl
  | succ n => exact .inl rfl

theorem core_reset (t : Tower β n) : core (Index.reset t) = Index.reset (core t) := by
  induction n with
  | zero => rfl
  | succ n ih => exact ih (Refined.base t)

end Tower

/-! ## Reachable states -/

/-- If the index is a sorted one, it is reachable. -/
def Stock.Sound : Stock → Prop
  | .inr (.inr s) => SortedAxis.Reachable s
  | _ => True

namespace Stock.Sound

variable {b : Stock}

theorem train (h : Sound b) (x : Floats) : Sound (Index.train b x).state := by
  obtain _ | _ | s := b
  · trivial
  · trivial
  · show SortedAxis.Reachable (Outcome.replace s ((rowCount 1 x).map fun _ => s)).state
    cases rowCount 1 x <;> exact h

theorem add (h : Sound b) (x : Floats) : Sound (Index.add b x).state := by
  obtain _ | _ | s := b
  · trivial
  · trivial
  · exact SortedAxis.Reachable.add x h

theorem addWithIds (h : Sound b) (x : Floats) (ids : Array Label) :
    Sound (Index.addWithIds b x ids).state := by
  obtain _ | _ | s := b
  · trivial
  · trivial
  · exact h

theorem removeIds (h : Sound b) (selector : Selector) :
    Sound (Index.removeIds b selector).state := by
  obtain _ | _ | s := b
  · trivial
  · trivial
  · exact SortedAxis.Reachable.remove selector h

theorem reset (h : Sound b) : Sound (Index.reset b) := by
  obtain _ | _ | s := b
  · trivial
  · trivial
  · exact SortedAxis.Reachable.reset h

end Stock.Sound

namespace Tower

/-- The states that operations lead to, failing ones included. An index may be refined while it is
empty, and given back later. A sort may leave equal values in any order, so the order of a sorted
index can change to another one of the same values at any time. -/
inductive Reachable : {n : Nat} → Tower Stock n → Prop where
  | flat {d : Nat} {metric : Metric} {f : Flat} :
      Flat.empty d metric = .ok f → @Reachable 0 (.inl f)
  | shifted {d : Nat} {shift : Floats} {s : Shifted} :
      Shifted.empty d shift = .ok s → @Reachable 0 (.inr (.inl s))
  | sorted (settings : SortedAxisSettings) : @Reachable 0 (.inr (.inr (.empty settings)))
  | refine {n : Nat} {t : Tower Stock n} {settings : RefineSettings} {r : Refined (Tower Stock n)} :
      Reachable t → Refined.ofBase t settings = .ok r → @Reachable (n + 1) r
  | base {n : Nat} {r : Refined (Tower Stock n)} : @Reachable (n + 1) r → Reachable r.base
  | train {n : Nat} {t : Tower Stock n} (x : Floats) :
      Reachable t → Reachable (Index.train t x).state
  | add {n : Nat} {t : Tower Stock n} (x : Floats) : Reachable t → Reachable (Index.add t x).state
  | addWithIds {n : Nat} {t : Tower Stock n} (x : Floats) (ids : Array Label) :
      Reachable t → Reachable (Index.addWithIds t x ids).state
  | removeIds {n : Nat} {t : Tower Stock n} (selector : Selector) :
      Reachable t → Reachable (Index.removeIds t selector).state
  | reset {n : Nat} {t : Tower Stock n} : Reachable t → Reachable (Index.reset t)
  | setFactor {n : Nat} {r : Refined (Tower Stock n)} (factor : Binary32) :
      @Reachable (n + 1) r → @Reachable (n + 1) (r.setFactor factor).state
  | setShift {s : Shifted} (shift : Floats) :
      @Reachable 0 (.inr (.inl s)) → @Reachable 0 (.inr (.inl (s.setShift shift)))
  | update {s : SortedAxis} :
      @Reachable 0 (.inr (.inr s)) → @Reachable 0 (.inr (.inr s.update))
  | resort {n : Nat} {t : Tower Stock n} {s : SortedAxis} {order : Array Nat} :
      Reachable t → core t = .inr (.inr s) → Argsort s.values s.order.size order →
      Reachable (setCore (.inr (.inr { s with order })) t)

/-- A sorted index under refinements is reachable without them. -/
theorem Reachable.sound_core {n : Nat} {t : Tower Stock n} (h : Reachable t) :
    Stock.Sound (core t) := by
  induction h with
  | flat _ => trivial
  | shifted _ => trivial
  | sorted settings => exact SortedAxis.Reachable.empty settings
  | refine _ hr ih =>
    obtain ⟨-, exact, -, rfl⟩ := Refined.ofBase_eq_ok hr
    exact ih
  | base _ ih => exact ih
  | train x _ ih =>
    rw [core_train]
    exact ih.train x
  | @add n t x _ ih =>
    rcases core_add t x with hcore | hcore
    · rwa [hcore]
    · rw [hcore]
      exact ih.add x
  | @addWithIds n t x ids _ ih =>
    rcases core_addWithIds t x ids with hcore | hcore
    · rwa [hcore]
    · rw [hcore]
      exact ih.addWithIds x ids
  | @removeIds n t selector _ ih =>
    rcases core_removeIds t selector with hcore | hcore
    · rwa [hcore]
    · rw [hcore]
      exact ih.removeIds selector
  | reset _ ih =>
    rw [core_reset]
    exact ih.reset
  | @setFactor n r factor _ ih =>
    have hcore := congrArg core (r.setFactor_base factor)
    exact hcore ▸ ih
  | setShift _ _ => trivial
  | update _ ih => exact SortedAxis.Reachable.update ih
  | resort _ hcore hsort ih =>
    rw [core_setCore]
    rw [hcore] at ih
    exact SortedAxis.Reachable.resort ih hsort

end Tower

end Neighbors
