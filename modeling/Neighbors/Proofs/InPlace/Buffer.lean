import Neighbors.Proofs.Rescore

/-!
# Buffers, step by step

The steps that read and write a buffer where it is: each answers `none` where it would leave the
buffer, because an index is past the end, a range is not inside or two lengths differ. Slots are
written a row of `k` at a time (`Slots.eachRow?`); `eachRow?_eq` says what is there in the end.
-/

namespace Neighbors

theorem mapM_eq_some {α β : Type} {f : α → Option β} {l : List α} {r : List β}
    (hlen : l.length = r.length)
    (h : ∀ (i : Nat) (hi : i < l.length), f l[i] = some r[i]) : l.mapM f = some r := by
  induction l generalizing r with
  | nil => rw [List.eq_nil_of_length_eq_zero hlen.symm]; rfl
  | cons a l ih =>
    obtain _ | ⟨b, r⟩ := r
    · cases hlen
    · have hhead : f a = some b := h 0 (Nat.zero_lt_succ _)
      have htail : l.mapM f = some r :=
        ih (Nat.succ.inj hlen) fun i hi => h (i + 1) (by simpa using hi)
      rw [List.mapM_cons, hhead, htail]
      rfl

namespace Buffer

variable {α : Type}

def write? (a : Array α) (i : Nat) (x : α) : Option (Array α) :=
  if h : i < a.size then some (a.set i x h) else none

def swap? (a : Array α) (i j : Nat) : Option (Array α) :=
  if h : i < a.size ∧ j < a.size then some (a.swap i j h.1 h.2) else none

def slice? (a : Array α) (start stop : Nat) : Option (Array α) :=
  if start ≤ stop ∧ stop ≤ a.size then some (a.extract start stop) else none

/-- Copies `source` over the whole of `a`. -/
def copy? (a source : Array α) : Option (Array α) :=
  if source.size = a.size then some source else none

/-- Copies the entries from `start` to below `stop` to where `target` is the first. -/
def copyWithin? (a : Array α) (start stop target : Nat) : Option (Array α) := do
  let source ← slice? a start stop
  let after := target + source.size
  let _ ← slice? a target after
  return a.extract 0 target ++ source ++ a.extract after a.size

def fillFrom? (a : Array α) (start : Nat) (x : α) : Option (Array α) := do
  let rest ← slice? a start a.size
  return a.extract 0 start ++ .replicate rest.size x

/-- The pieces of `k` entries; the last one may be shorter. There are none of no entries. -/
def chunks? (k : Nat) (a : Array α) : Option (List (Array α)) :=
  if k = 0 then none
  else some ((List.range ((a.size + (k - 1)) / k)).map fun i => a.extract (i * k) ((i + 1) * k))

/-- The pieces of exactly `k` entries. -/
def chunksExact? (k : Nat) (a : Array α) : Option (List (Array α)) :=
  if k = 0 then none
  else some ((List.range (a.size / k)).map fun i => a.extract (i * k) ((i + 1) * k))

theorem slice?_eq_some {a : Array α} {start stop : Nat} (h : start ≤ stop) (hs : stop ≤ a.size) :
    slice? a start stop = some (a.extract start stop) := if_pos ⟨h, hs⟩

theorem copy?_eq_some {a source : Array α} (h : source.size = a.size) :
    copy? a source = some source := if_pos h

theorem chunks?_eq_some {a : Array α} {n k : Nat} (hk : 0 < k) (ha : a.size = n * k) :
    chunks? k a = some ((List.range n).map fun i => a.extract (i * k) ((i + 1) * k)) := by
  have hcount : (n * k + (k - 1)) / k = n := by
    rw [Nat.mul_comm, Nat.mul_add_div hk, Nat.div_eq_of_lt (Nat.sub_lt hk Nat.one_pos),
      Nat.add_zero]
  rw [chunks?, if_neg hk.ne', ha, hcount]

theorem chunksExact?_eq_some {a : Array α} {n k : Nat} (hk : 0 < k) (ha : a.size = n * k) :
    chunksExact? k a = some ((List.range n).map fun i => a.extract (i * k) ((i + 1) * k)) := by
  rw [chunksExact?, if_neg hk.ne', ha, Nat.mul_div_cancel n hk]

theorem fillFrom?_append (cs : List α) (rest : List α) (x : α) :
    fillFrom? (cs ++ rest).toArray cs.length x =
      some (cs ++ List.replicate rest.length x).toArray := by
  have hslice : slice? (cs ++ rest).toArray cs.length (cs ++ rest).toArray.size = some _ :=
    slice?_eq_some (by simp) (Nat.le_refl _)
  rw [fillFrom?, hslice]
  simp [List.extract_eq_take_drop]

end Buffer

namespace Slots

variable {β : Type}

def get? (s : Slots) (i : Nat) : Option Candidate := do
  return ⟨← s.distances[i]?, ← s.labels[i]?⟩

def write? (s : Slots) (i : Nat) (c : Candidate) : Option Slots := do
  return ⟨← Buffer.write? s.distances i c.distance, ← Buffer.write? s.labels i c.label⟩

def swap? (s : Slots) (i j : Nat) : Option Slots := do
  return ⟨← Buffer.swap? s.distances i j, ← Buffer.swap? s.labels i j⟩

def fillFrom? (s : Slots) (start : Nat) (c : Candidate) : Option Slots := do
  return ⟨← Buffer.fillFrom? s.distances start c.distance,
    ← Buffer.fillFrom? s.labels start c.label⟩

def rows? (s : Slots) (k : Nat) : Option (List Slots) := do
  return List.zipWith Slots.mk (← Buffer.chunks? k s.distances) (← Buffer.chunks? k s.labels)

def ofRows (rows : List Slots) : Slots :=
  ⟨(rows.flatMap fun row => row.distances.toList).toArray,
    (rows.flatMap fun row => row.labels.toList).toArray⟩

/-- Each row of `k` slots is written by `f` for a query of its own. -/
def eachRow? (s : Slots) (k : Nat) (qs : List β) (f : β → Slots → Option Slots) :
    Option Slots := do
  let rows ← s.rows? k
  let written ← (qs.zip rows).mapM fun (q, row) => f q row
  return ofRows (written ++ rows.drop qs.length)

theorem rows?_eq {s : Slots} {n k : Nat} (hk : 0 < k) (hs : s.HasSize (n * k)) :
    s.rows? k = some ((List.range n).map (s.row k)) := by
  rw [rows?, Buffer.chunks?_eq_some hk hs.distances, Buffer.chunks?_eq_some hk hs.labels]
  simp only [bind, Option.bind, pure, List.zipWith_map, List.zipWith_self]
  rfl

theorem ofRows_rows {s : Slots} {n k : Nat} (hs : s.HasSize (n * k)) :
    ofRows ((List.range n).map (s.row k)) = s := by
  have hdistances := flatMap_extract hs.distances
  have hlabels := flatMap_extract hs.labels
  rw [List.flatMap_map] at hdistances hlabels
  simp only [ofRows, List.flatMap_map, row, hdistances, hlabels, Array.toArray_toList]

theorem eachRow?_eq {s found : Slots} {n k : Nat} {qs : List β} {f : β → Slots → Option Slots}
    (hk : 0 < k) (hs : s.HasSize (n * k)) (hfound : found.HasSize (n * k)) (hqs : qs.length = n)
    (hf : ∀ (i : Nat) (hi : i < qs.length), f qs[i] (s.row k i) = some (found.row k i)) :
    s.eachRow? k qs f = some found := by
  have hwritten : (qs.zip ((List.range n).map (s.row k))).mapM (fun (q, row) => f q row) =
      some ((List.range n).map (found.row k)) := by
    refine mapM_eq_some (by simp [hqs]) fun i hi => ?_
    simp only [List.getElem_zip, List.getElem_map, List.getElem_range]
    exact hf i _
  have hrest : ((List.range n).map (s.row k)).drop qs.length = [] :=
    List.drop_of_length_le (by simp [hqs])
  rw [eachRow?, rows?_eq hk hs]
  simp only [bind, Option.bind, pure, hwritten, hrest, List.append_nil, ofRows_rows hfound]

end Slots

end Neighbors
