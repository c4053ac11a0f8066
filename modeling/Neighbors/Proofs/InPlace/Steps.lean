import Neighbors.Proofs.InPlace.Storage
import Neighbors.Proofs.Sized

/-!
# Indexes, step by step

`Index.Steps` has the operations of an index that index, cut or copy buffers, as they do it: `none`
where a step leaves a buffer or a number of slots has more than 64 bits. A search writes to the
slots it is given. What is left out touches no buffer.
-/

namespace Neighbors

namespace Index

/-- `checkShape` with a product that may not wrap around. -/
def checkShape? (d : Nat) (x : Floats) (k : Nat) (out : Slots) : Option (Except Error Nat) :=
  match rowCount d x with
  | .error e => some (.error e)
  | .ok nq => do
    let expected ← Count.mul? nq k
    if out.distances.size ≠ expected then
      return .error (.dimensionMismatch expected out.distances.size)
    else if out.labels.size ≠ expected then
      return .error (.dimensionMismatch expected out.labels.size)
    else return .ok nq

/-- A search whose slots have the right shape lets `write?` write them. -/
def searchInto? (d : Nat) (x : Floats) (k : Nat) (out : Slots) (write? : Slots → Option Slots) :
    Option (Outcome Slots Unit) := do
  match ← checkShape? d x k out with
  | .error e => return .fail e out
  | .ok _ => return .done (← write? out)

variable {d k : Nat} {x : Floats} {out : Slots}

theorem checkShape?_eq (h : x.size / d * k ≤ Count.limit) :
    checkShape? d x k out = some (checkShape d x k out) := by
  unfold checkShape? checkShape
  cases hrows : rowCount d x with
  | error e => rfl
  | ok nq =>
    obtain ⟨-, -, rfl⟩ := rowCount_eq_ok_iff.1 hrows
    have hmul : Count.mul? (x.size / d) k = some (x.size / d * k) := if_pos h
    simp only [hmul, Count.mul_eq h, bind, Option.bind, Except.bind, pure]
    split
    · rfl
    · split <;> rfl

theorem searchInto?_eq {write? : Slots → Option Slots} {found : Slots}
    (h : x.size / d * k ≤ Count.limit)
    (hwrite : ∀ nq, 0 < d → x.size = nq * d → out.HasSize (nq * k) → write? out = some found) :
    searchInto? d x k out write? =
      some (.replace out ((checkShape d x k out).map fun _ => found)) := by
  rw [searchInto?, checkShape?_eq h, Option.bind_eq_bind, Option.bind_some]
  cases hshape : checkShape d x k out with
  | error e => rfl
  | ok nq =>
    obtain ⟨hd, hmod, rfl⟩ := rowCount_eq_ok_iff.1 (checkShape_eq_ok_iff.1 hshape).1
    have hwhole : x.size = x.size / d * d :=
      (Nat.div_mul_cancel (Nat.dvd_of_mod_eq_zero hmod)).symm
    dsimp only
    rw [hwrite _ hd hwhole (WellShaped.of_checkShape hshape h).size]
    rfl

/-- The operations of an index, step by step. Of an index from elsewhere nothing is known but what
they answer. -/
class Steps (σ : Type) [Index σ] where
  add? : σ → Floats → Option (Outcome σ Unit) := fun s x => some (add s x)
  search? : σ → (queries : Floats) → (k : Nat) → Slots → Option (Outcome Slots Unit) :=
    fun s x k out => some (search s x k out)
  rangeSearch? : σ → (queries : Floats) → (radius : Binary32) → Option (Except Error Matches) :=
    fun s x radius => some (rangeSearch s x radius)
  removeIds? : σ → Selector → Option (Outcome σ Nat) :=
    fun s selector => some (removeIds s selector)
  reconstruct? : σ → Label → Floats → Option (Outcome Floats Unit) :=
    fun s label out => some (reconstruct s label out)
  reconstructN? : σ → (first : Label) → (n : Nat) → Floats → Option (Outcome Floats Unit) :=
    fun s first n out => some (reconstructN s first n out)

end Index

open Index

namespace Flat

def search? (f : Flat) (x : Floats) (k : Nat) (out : Slots) : Option (Outcome Slots Unit) :=
  searchInto? f.dimension x k out (Scan.nearest? f.metric x f.vectors f.dimension k)

def rangeSearch? (f : Flat) (x : Floats) (radius : Binary32) : Option (Except Error Matches) :=
  match rowCount f.dimension x with
  | .error e => some (.error e)
  | .ok _ => (Scan.within? f.metric x f.vectors f.dimension radius).map .ok

/-- All labels are checked before any of them is followed. -/
def rescore? (f : Flat) (x : Floats) (k : Nat) (out : Slots) : Option (Outcome Slots Unit) := do
  match ← checkShape? f.dimension x k out with
  | .error e => return .fail e out
  | .ok _ =>
    match out.labels.toList.find? fun l => l ≠ noLabel && !l.isStored f.count with
    | some label => return .fail (.labelOutOfRange label f.count) out
    | none => return .done (← Scan.rescore? f.metric x f.vectors f.dimension k out)

def removeIds? (f : Flat) (selector : Selector) : Option (Outcome Flat Nat) := do
  let (rest, compaction) ← f.remove? selector
  return ⟨.ok compaction.removed, rest⟩

instance : Steps Flat where
  search? := search?
  rangeSearch? := rangeSearch?
  removeIds? := removeIds?
  reconstruct? := reconstruct?
  reconstructN? := reconstructN?

end Flat

namespace Shifted

def search? (s : Shifted) (x : Floats) (k : Nat) (out : Slots) : Option (Outcome Slots Unit) :=
  if s.shift.size ≠ s.storage.count then
    some (.fail (.shiftSizeMismatch s.shift.size s.storage.count) out)
  else
    searchInto? s.storage.dimension x k out
      (Scan.nearestShifted? x s.storage.data s.shift s.storage.dimension k)

def removeIds? (s : Shifted) (selector : Selector) : Option (Outcome Shifted Nat) := do
  let (rest, compaction) ← s.flat.remove? selector
  return ⟨.ok compaction.removed, { s with storage := rest.storage }⟩

instance : Steps Shifted where
  search? := search?
  removeIds? := removeIds?
  reconstruct? s := s.flat.reconstruct?
  reconstructN? s := s.flat.reconstructN?

end Shifted

namespace SortedAxis

def update? (s : SortedAxis) : Option SortedAxis := do
  return { s with order := ← sortedOrder? s.values }

def updateIfContinuous? (s : SortedAxis) : Option SortedAxis :=
  if s.settings.continuousUpdate then s.update? else some s

def search? (s : SortedAxis) (x : Floats) (k : Nat) (out : Slots) : Option (Outcome Slots Unit) :=
  if !s.isCurrent then some (.fail (.permutationStale s.order.size s.count) out)
  else searchInto? 1 x k out (s.searchRows? x k)

def add? (s : SortedAxis) (x : Floats) : Option (Outcome SortedAxis Unit) :=
  match rowCount 1 x with
  | .error e => some (.fail e s)
  | .ok _ => (updateIfContinuous? { s with values := s.values ++ x }).map .done

def removeIds? (s : SortedAxis) (selector : Selector) : Option (Outcome SortedAxis Nat) := do
  let (rest, compaction) ← s.flat.remove? selector
  if compaction.removed = 0 then return ⟨.ok 0, s⟩
  else
    let s ← updateIfContinuous? { s with values := rest.vectors, order := #[] }
    return ⟨.ok compaction.removed, s⟩

instance : Steps SortedAxis where
  add? := add?
  search? := search?
  rangeSearch? s := s.flat.rangeSearch?
  removeIds? := removeIds?
  reconstruct? s := s.flat.reconstruct?
  reconstructN? s := s.flat.reconstructN?

end SortedAxis

instance {α β : Type} [Index α] [Index β] [Steps α] [Steps β] : Steps (α ⊕ β) where
  add? s x := s.elim (fun a => (Steps.add? a x).map (·.mapState .inl))
    fun b => (Steps.add? b x).map (·.mapState .inr)
  search? := Sum.elim Steps.search? Steps.search?
  rangeSearch? := Sum.elim Steps.rangeSearch? Steps.rangeSearch?
  removeIds? s selector := s.elim (fun a => (Steps.removeIds? a selector).map (·.mapState .inl))
    fun b => (Steps.removeIds? b selector).map (·.mapState .inr)
  reconstruct? := Sum.elim Steps.reconstruct? Steps.reconstruct?
  reconstructN? := Sum.elim Steps.reconstructN? Steps.reconstructN?

namespace Refined

variable {β : Type} [Index β] [Steps β]

def add? (r : Refined β) (x : Floats) : Option (Outcome (Refined β) Unit) :=
  if !r.trained then some (.fail .notTrained r)
  else match rowCount r.exact.dimension x with
    | .error e => some (.fail e r)
    | .ok _ => do
      let o ← Steps.add? r.base x
      match o.answer with
      | .error e => return .fail e { r with base := o.state }
      | .ok () =>
        let added := Outcome.replace r.exact (r.exact.add x)
        return added.mapState fun exact => { r with base := o.state, exact }

/-- The candidates of the base, in slots of their own, with exact distances. -/
def candidates? (r : Refined β) (x : Floats) (nq width : Nat) : Option (Except Error Slots) := do
  let size ← Count.mul? nq width
  match scratch size with
  | .error e => return .error e
  | .ok blank => do
    let found ← Steps.search? r.base x width blank
    match found.answer with
    | .error e => return .error e
    | .ok () => do
      let scored ← r.exact.rescore? x width found.state
      return scored.answer.map fun _ => scored.state

def search? (r : Refined β) (x : Floats) (k : Nat) (out : Slots) :
    Option (Outcome Slots Unit) :=
  if !r.trained then some (.fail .notTrained out)
  else do
    match ← checkShape? r.exact.dimension x k out with
    | .error e => return .fail e out
    | .ok nq =>
      if nq = 0 ∨ k = 0 then return .done out
      else do
        let width := candidateCount r.factor k
        match ← r.candidates? x nq width with
        | .error e => return .fail e out
        | .ok cs => return .done (← rank? r.exact.metric k width cs out)

instance : Steps (Refined β) where
  add? := add?
  search? := search?
  reconstruct? r := r.exact.reconstruct?
  reconstructN? r := r.exact.reconstructN?

end Refined

instance Tower.instSteps {β : Type} [Index β] [Steps β] : (n : Nat) → Steps (Tower β n)
  | 0 => inferInstanceAs (Steps β)
  | n + 1 =>
    have := Tower.instSteps (β := β) n
    inferInstanceAs (Steps (Refined (Tower β n)))

/-! ## Operations on every index -/

namespace Index

variable {σ : Type} [Index σ] [Steps σ]

def searchKnn? (s : σ) (x : Floats) (k : Nat) : Option (Except Error Results) :=
  match rowCount (dimension s) x with
  | .error e => some (.error e)
  | .ok nq => do
    let size ← Count.mul? nq k
    let o ← Steps.search? s x k ⟨.replicate size .zero, .replicate size noLabel⟩
    return o.answer.map fun _ => ⟨nq, k, o.state⟩

def assign? (s : σ) (x : Floats) (k : Nat) : Option (Except Error (Array Label)) := do
  let r ← searchKnn? s x k
  return r.map fun r => r.slots.labels

def reconstructRow? (reconstruct? : Label → Floats → Option (Outcome Floats Unit)) (label : Label)
    (row : Floats) : Option (Except Error Floats) :=
  if label = noLabel then some (.ok row)
  else (reconstruct? label row).map fun o => o.answer.map fun _ => o.state

/-- Reconstructs vectors over staged rows, up to the first that fails. -/
def collectRows? (reconstruct? : Label → Floats → Option (Outcome Floats Unit)) :
    (staged : List Floats) → List Label → Option (Except Error (List Floats))
  | row :: staged, label :: labels => do
    match ← reconstructRow? reconstruct? label row with
    | .error e => return .error e
    | .ok row => do
      let rest ← collectRows? reconstruct? staged labels
      return rest.map (row :: ·)
  | staged, _ => some (.ok staged)

def labelAfter? (first : Label) (i : Nat) : Option Label :=
  if first + i ≤ Label.greatest then some (first + i) else none

/-- Stages rows of `d` times `blank`, reconstructs vectors into them, and copies all of them out. -/
def stage? (reconstruct? : Label → Floats → Option (Outcome Floats Unit)) (d : Nat)
    (blank : Binary32) (labels : List Label) (out : Floats) : Option (Except Error Floats) := do
  let staged ← Buffer.chunksExact? d (Array.replicate out.size blank)
  match ← collectRows? reconstruct? staged labels with
  | .error e => return .error e
  | .ok rows => do return .ok (← Buffer.copy? out (rows.flatMap Array.toList).toArray)

def reconstructEach? (d count : Nat)
    (reconstruct? : Label → Floats → Option (Outcome Floats Unit)) (first : Label) (n : Nat)
    (out : Floats) : Option (Outcome Floats Unit) :=
  match checkRows d n out with
  | .error e => some (.fail e out)
  | .ok () =>
    if Label.rangeWithin first n count then do
      let labels ← (List.range n).mapM (labelAfter? first)
      return .replace out (← stage? reconstruct? d .zero labels out)
    else some (.fail (.labelOutOfRange (Label.lastOfRange first n) count) out)

def searchAndReconstruct? (s : σ) (x : Floats) (k : Nat) (out : Slots) (vectors : Floats) :
    Option (Outcome (Slots × Floats) Unit) := do
  let d := dimension s
  match ← checkShape? d x k out with
  | .error e => return .fail e (out, vectors)
  | .ok nq =>
    let slots ← Count.mul? nq k
    let size ← Count.mul? slots d
    if vectors.size ≠ size then
      return .fail (.dimensionMismatch size vectors.size) (out, vectors)
    else do
      let found ← Steps.search? s x k out
      match found.answer with
      | .error e => return .fail e (found.state, vectors)
      | .ok () =>
        let labels := found.state.labels.toList
        match labels.find? fun l => l ≠ noLabel && !l.isStored (count s) with
        | some label => return .fail (.labelOutOfRange label (count s)) (found.state, vectors)
        | none => do
          let written ← stage? (Steps.reconstruct? s) d .nan labels vectors
          return (Outcome.replace vectors written).mapState fun vectors => (found.state, vectors)

def computeResidual? (s : σ) (x : Floats) (label : Label) (residual : Floats) :
    Option (Outcome Floats Unit) :=
  let d := dimension s
  if x.size ≠ d then some (.fail (.dimensionMismatch d x.size) residual)
  else if residual.size ≠ d then some (.fail (.dimensionMismatch d residual.size) residual)
  else do
    let o ← Steps.reconstruct? s label residual
    match o.answer with
    | .error e => return .fail e o.state
    | .ok () => return .done (Array.zipWith (· - ·) x o.state)

end Index

end Neighbors
