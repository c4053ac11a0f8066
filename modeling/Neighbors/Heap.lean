/-!
# Binary heaps in a vector

A heap for a relation `after` has at its root an entry that no entry is after. The children of
position `i` are `2 i + 1` and `2 i + 2`. Nothing is assumed of `after`: the sifts are defined
step by step also where it is no order.
-/

namespace Neighbors.Heap

variable {α : Type} {size : Nat}

/-- Swaps the entry at `i` with its parent for as long as it is after the parent. -/
def siftUp (after : α → α → Bool) (v : Vector α size) (i : Nat) (h : i < size) : Vector α size :=
  if hi : i = 0 then v
  else
    let parent := (i - 1) / 2
    if after v[i] v[parent] then siftUp after (v.swap i parent) parent (by omega) else v
termination_by i

/-- The child of `i` to compare with: the right one if it is inside the first `n` entries and
after the left one. -/
def child (after : α → α → Bool) (v : Vector α size) (i n : Nat) (hn : n ≤ size)
    (h : 2 * i + 1 < n) : { c : Nat // i < c ∧ c < n } :=
  if h' : 2 * i + 2 < n then
    if after v[2 * i + 2] v[2 * i + 1] then ⟨2 * i + 2, by omega⟩ else ⟨2 * i + 1, by omega⟩
  else ⟨2 * i + 1, by omega⟩

/-- Swaps the entry at `i` with a child, within the first `n` entries, for as long as the child
is after it. -/
def siftDown (after : α → α → Bool) (v : Vector α size) (i n : Nat) (hn : n ≤ size) :
    Vector α size :=
  if h : 2 * i + 1 < n then
    match child after v i n hn h with
    | ⟨c, _⟩ => if after v[c] v[i] then siftDown after (v.swap c i) c n hn else v
  else v
termination_by n - i

/-- Sorts a heap of the first `n` entries: the root changes places with the last entry, and the
entries before it are made a heap again. -/
def sort (after : α → α → Bool) (v : Vector α size) : (n : Nat) → n ≤ size → Vector α size
  | 0, _ => v
  | n + 1, h => sort after (siftDown after (v.swap 0 n) 0 n (by omega)) n (by omega)

end Neighbors.Heap
