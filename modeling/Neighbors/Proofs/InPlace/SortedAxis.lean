import Neighbors.Proofs.InPlace.Scan

/-!
# The sorted index, read step by step

A position of the order is looked up, then the value there; a frontier moves by one. As long as the
order has positions of values only, which a search makes sure of, neither leaves its array
(`SortedAxis.searchRow?_eq`).
-/

namespace Neighbors

/-- The difference of two counts, unless it is negative. -/
def Count.sub? (a b : Nat) : Option Nat := if b ≤ a then some (a - b) else none

/-- Each value is looked up for the comparisons. -/
def sortedOrder? (values : Floats) : Option (Array Nat) := do
  let keyed ← (List.range values.size).mapM fun i => do return (i, ← values[i]?)
  return ((keyed.mergeSort fun a b => a.2.totalKey ≤ b.2.totalKey).map Prod.fst).toArray

theorem sortedOrder?_eq (values : Floats) : sortedOrder? values = some (sortedOrder values) := by
  have hkeyed : ((List.range values.size).mapM fun i => do return (i, ← values[i]?)) =
      some ((List.range values.size).map fun i => (i, values.getD i .zero)) := by
    refine mapM_eq_some (by simp) fun i hi => ?_
    have hlt : i < values.size := by simpa using hi
    simp [Array.getD_eq_getD_getElem?, hlt]
  have hsort := List.map_mergeSort (l := List.range values.size)
    (f := fun i => (i, values.getD i .zero))
    (r := fun a b => (values.getD a .zero).totalKey ≤ (values.getD b .zero).totalKey)
    (s := fun a b => a.2.totalKey ≤ b.2.totalKey) fun _ _ _ _ => rfl
  rw [sortedOrder?, hkeyed]
  simp only [Option.bind_eq_bind, Option.bind_some, ← hsort, List.map_map]
  exact congrArg (fun l => some (List.toArray l)) (List.map_id _)

namespace Frontier

variable (value? : Nat → Option Binary32) (q : Binary32)

def bracket? (lo hi : Nat) : Option (Nat × Nat) :=
  if lo + 1 < hi then do
    if (← value? ((lo + hi) / 2)).le q then bracket? ((lo + hi) / 2) hi
    else bracket? lo ((lo + hi) / 2)
  else some (lo, hi)
termination_by hi - lo

def locate? (n : Nat) : Option Frontier :=
  if n = 0 then some exhausted
  else do
    if q.lt (← value? 0) then some (right 0)
    else do
      let last ← Count.sub? n 1
      if (← value? last).le q then some (left last)
      else do
        let (lo, hi) ← bracket? value? q 0 last
        return both lo hi

def before? (i : Nat) (start : Frontier) (other : Nat → Frontier) : Option Frontier :=
  if i = 0 then some start else do return other (← Count.sub? i 1)

/-- The position of the next result, if one is left, and the frontier after it. -/
def step? (n : Nat) : Frontier → Option (Option Nat × Frontier)
  | both l r => do
    if (q - (← value? l)).lt ((← value? r) - q) then
      return (some l, ← before? l (right r) fun l => both l r)
    else return (some r, if r + 1 = n then left l else both l (r + 1))
  | left i => do return (some i, ← before? i exhausted left)
  | right i => some (some i, if i + 1 = n then exhausted else right (i + 1))
  | exhausted => some (none, exhausted)

variable {value? q} {value : Nat → Binary32} {n : Nat}

theorem bracket?_eq {lo hi : Nat} (hvalue : ∀ i < n, value? i = some (value i)) (hlt : lo < hi)
    (hhi : hi < n) : bracket? value? q lo hi = some (bracket value q lo hi) := by
  induction lo, hi using bracket.induct value q with
  | case1 lo hi hgap mid hle ih =>
    rw [bracket?, if_pos hgap, bracket, if_pos hgap, hvalue _ (by omega)]
    simp only [Option.bind_eq_bind, Option.bind_some, mid] at hle ih ⊢
    rw [if_pos hle, if_pos hle]
    exact ih (by omega) hhi
  | case2 lo hi hgap mid hle ih =>
    rw [bracket?, if_pos hgap, bracket, if_pos hgap, hvalue _ (by omega)]
    simp only [Option.bind_eq_bind, Option.bind_some, mid] at hle ih ⊢
    rw [if_neg hle, if_neg hle]
    exact ih (by omega) (by omega)
  | case3 lo hi hgap => rw [bracket?, if_neg hgap, bracket, if_neg hgap]

theorem locate?_eq (hvalue : ∀ i < n, value? i = some (value i)) :
    locate? value? q n = some (locate value q n) := by
  unfold locate? locate
  by_cases hn : n = 0
  · rw [if_pos hn, if_pos hn]
  · have hpos : 0 < n := Nat.pos_of_ne_zero hn
    have hsub : Count.sub? n 1 = some (n - 1) := if_pos hpos
    rw [if_neg hn, if_neg hn, hvalue 0 hpos, hsub]
    simp only [Option.bind_eq_bind, Option.bind_some, hvalue (n - 1) (by omega)]
    by_cases hlt : q.lt (value 0) = true
    · rw [if_pos hlt, if_pos hlt]
    · rw [if_neg hlt, if_neg hlt]
      by_cases hle : (value (n - 1)).le q = true
      · rw [if_pos hle, if_pos hle]
      · rw [if_neg hle, if_neg hle]
        by_cases hone : 0 < n - 1
        · rw [bracket?_eq hvalue hone (by omega)]
          rfl
        · rw [bracket?, bracket, if_neg (by omega), if_neg (by omega)]
          rfl

theorem Inside.lt_of_next? {f rest : Frontier} {i : Nat} (hf : f.Inside n)
    (h : f.next? value q n = some (i, rest)) : i < n := by
  cases f with
  | both l r =>
    simp only [next?] at h
    split at h
    · cases h; exact hf.1
    · cases h; exact hf.2
  | left i => cases h; exact hf
  | right i => cases h; exact hf
  | exhausted => cases h

theorem before?_eq (i : Nat) (start : Frontier) (other : Nat → Frontier) :
    before? i start other = some (match i with | 0 => start | i + 1 => other i) := by
  cases i <;> rfl

theorem step?_eq {f : Frontier} (hvalue : ∀ i < n, value? i = some (value i))
    (hf : f.Inside n) : f.step? value? q n = some (match f.next? value q n with
      | some (i, rest) => (some i, rest)
      | none => (none, exhausted)) := by
  cases f with
  | both l r =>
    obtain ⟨hl, hr⟩ := hf
    simp only [step?, next?, hvalue l hl, hvalue r hr, before?_eq, Option.bind_eq_bind,
      Option.bind_some]
    split <;> rfl
  | left i =>
    simp only [step?, next?, before?_eq, Option.bind_eq_bind, Option.bind_some]
    rfl
  | right i => rfl
  | exhausted => rfl

end Frontier

namespace SortedAxis

variable {s : SortedAxis} {q : Binary32} {k : Nat}

def valueAt? (s : SortedAxis) (i : Nat) : Option Binary32 := do
  let label ← s.order[i]?
  s.values[label]?

/-- What a slot shows for a sorted position. -/
def slotAt? (s : SortedAxis) (q : Binary32) : Option Nat → Option Candidate
  | none => some .padding
  | some i => do
    let label ← s.order[i]?
    let diff := q - (← s.values[label]?)
    return ⟨diff * diff, label⟩

/-- Fills `k` slots outwards from a frontier. -/
def expand? (s : SortedAxis) (q : Binary32) : (k : Nat) → Frontier → Option (List Candidate)
  | 0, _ => some []
  | k + 1, f => do
    let (next, rest) ← f.step? s.valueAt? q s.order.size
    let c ← s.slotAt? q next
    return c :: (← expand? s q k rest)

def searchRow? (s : SortedAxis) (k : Nat) (q : Binary32) : Option (List Candidate) := do
  s.expand? q k (← Frontier.locate? s.valueAt? q s.order.size)

theorem order_lt (h : Argsort s.values s.count s.order) {i : Nat} (hi : i < s.order.size) :
    s.order[i] < s.values.size := h.lt_of_mem (Array.getElem_mem_toList hi)

theorem valueAt?_eq (h : Argsort s.values s.count s.order) {i : Nat} (hi : i < s.order.size) :
    s.valueAt? i = some (s.valueAt i) := by
  have hlt := order_lt h hi
  simp [valueAt?, valueAt, labelAt_eq s hi, hi, hlt, Array.getD_eq_getD_getElem?]

theorem slotAt?_eq (h : Argsort s.values s.count s.order) {i : Nat} (hi : i < s.order.size) :
    s.slotAt? q (some i) = some (s.candidateAt q i) := by
  have hlt := order_lt h hi
  simp [slotAt?, candidateAt, valueAt, labelAt_eq s hi, hi, hlt, Array.getD_eq_getD_getElem?]

theorem expand?_eq (h : Argsort s.values s.count s.order) {f : Frontier}
    (hf : f.Inside s.order.size) : s.expand? q k f =
      some ((Frontier.walk s.valueAt q s.order.size k f).map fun
        | some i => s.candidateAt q i
        | none => .padding) := by
  induction k generalizing f with
  | zero => rfl
  | succ k ih =>
    rw [expand?, Frontier.step?_eq (fun i hi => valueAt?_eq h hi) hf, Frontier.walk]
    cases hnext : f.next? s.valueAt q s.order.size with
    | none =>
      simp only [Option.bind_eq_bind, Option.bind_some, slotAt?, ih (f := .exhausted) trivial]
      rfl
    | some step =>
      obtain ⟨i, rest⟩ := step
      have hrest := (Frontier.next?_perm hf hnext).1
      simp only [Option.bind_eq_bind, Option.bind_some, slotAt?_eq h (hf.lt_of_next? hnext),
        ih hrest]
      rfl

theorem searchRow?_eq (h : Argsort s.values s.count s.order) (q : Binary32) (k : Nat) :
    s.searchRow? k q = some (s.searchRow k q) := by
  rw [searchRow?, Frontier.locate?_eq fun i hi => valueAt?_eq h hi]
  exact expand?_eq h (Frontier.locate_spec s.valueAt q s.order.size).1

def searchRows? (s : SortedAxis) (x : Floats) (k : Nat) (out : Slots) : Option Slots :=
  if k = 0 then some out
  else out.eachRow? k x.toList fun q row => do
    return .ofCandidates (← s.searchRow? row.labels.size q)

theorem searchRows?_eq (h : Argsort s.values s.count s.order) {x : Floats} {out : Slots}
    (hout : out.HasSize (x.size * k)) : s.searchRows? x k out =
      some (.fillRows out.distances.size k x.toList s.searchRow) := by
  have hfound := s.hasSize_rows (Nat.le_of_eq hout.distances)
  rw [hout.distances] at hfound ⊢
  by_cases hk : k = 0
  · subst hk
    rw [searchRows?, if_pos rfl]
    exact congrArg some (Slots.eq_of_hasSize_zero hout hfound)
  · rw [searchRows?, if_neg hk]
    refine Slots.eachRow?_eq (Nat.pos_of_ne_zero hk) hout hfound (by simp) fun i hi => ?_
    have hrow := (hout.row (by simpa using hi) : (out.row k i).HasSize k)
    rw [hrow.labels, searchRow?_eq h, Slots.row_fillRows (fun _ _ => length_searchRow s _ _) hi
      (Nat.mul_le_mul_right k (by simpa using hi))]
    rfl

end SortedAxis

end Neighbors
