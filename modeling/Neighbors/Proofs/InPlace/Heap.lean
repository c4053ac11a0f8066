import Neighbors.Proofs.InPlace.Buffer
import Neighbors.Proofs.TopK

/-!
# The collector in the slots of the caller

A `SlotHeap` keeps its heap at the beginning of the slots that the row is to be written to, whatever
they hold. It takes the same steps as a `TopK` (`SlotHeap.Holds`), never leaves the slots, and ends
with the same row (`Holds.finish?`).
-/

namespace Neighbors

namespace Slots

variable {metric : Metric} {n : Nat}

def ranksAfter? (metric : Metric) (s : Slots) (i j : Nat) : Option Bool := do
  return Candidate.ranksAfter metric (← s.get? i) (← s.get? j)

def siftUp? (metric : Metric) (s : Slots) (i : Nat) : Option Slots :=
  if _ : i = 0 then some s
  else do
    if ← s.ranksAfter? metric i ((i - 1) / 2) then
      siftUp? metric (← s.swap? i ((i - 1) / 2)) ((i - 1) / 2)
    else some s
termination_by i

def child? (metric : Metric) (s : Slots) (i n : Nat) (h : 2 * i + 1 < n) :
    Option { c : Nat // i < c ∧ c < n } :=
  if h' : 2 * i + 2 < n then do
    if ← s.ranksAfter? metric (2 * i + 2) (2 * i + 1) then some ⟨2 * i + 2, by omega⟩
    else some ⟨2 * i + 1, by omega⟩
  else some ⟨2 * i + 1, by omega⟩

def siftDown? (metric : Metric) (s : Slots) (i n : Nat) : Option Slots :=
  if h : 2 * i + 1 < n then do
    let ⟨c, _⟩ ← s.child? metric i n h
    if ← s.ranksAfter? metric c i then siftDown? metric (← s.swap? c i) c n else some s
  else some s
termination_by n - i

/-- Sorts a heap of the first `n` slots. The last entry that is left is in its place. -/
def sort? (metric : Metric) (s : Slots) : Nat → Option Slots
  | 0 | 1 => some s
  | n + 2 => do
    let s ← s.swap? 0 (n + 1)
    let s ← s.siftDown? metric 0 (n + 1)
    s.sort? metric (n + 1)

/-! ## Slots that begin with a vector -/

theorem get?_ofCandidates (cs : List Candidate) (i : Nat) : (ofCandidates cs).get? i = cs[i]? := by
  simp only [get?, ofCandidates, List.getElem?_toArray, List.getElem?_map]
  cases cs[i]? <;> rfl

theorem write?_ofCandidates {cs : List Candidate} {i : Nat} (hi : i < cs.length) (c : Candidate) :
    (ofCandidates cs).write? i c = some (ofCandidates (cs.set i c)) := by
  have hset : ∀ {γ : Type} (f : Candidate → γ),
      Buffer.write? (cs.map f).toArray i (f c) = some ((cs.set i c).map f).toArray := by
    intro γ f
    rw [Buffer.write?, dif_pos (by simpa using hi)]
    simp
  simp only [write?, ofCandidates, hset]
  rfl

theorem fillFrom?_ofCandidates (cs rest : List Candidate) (c : Candidate) :
    (ofCandidates (cs ++ rest)).fillFrom? cs.length c =
      some (ofCandidates (cs ++ List.replicate rest.length c)) := by
  have hfill : ∀ {γ : Type} (f : Candidate → γ),
      Buffer.fillFrom? ((cs ++ rest).map f).toArray cs.length (f c) =
        some ((cs ++ List.replicate rest.length c).map f).toArray := by
    intro γ f
    have hlist := Buffer.fillFrom?_append (cs.map f) (rest.map f) (f c)
    rwa [List.length_map, List.length_map, ← List.map_append, ← List.map_replicate,
      ← List.map_append] at hlist
  simp only [fillFrom?, ofCandidates, hfill]
  rfl

variable (v : Vector Candidate n) (rest : List Candidate)

theorem get?_vector {i : Nat} (hi : i < n) :
    (ofCandidates (v.toList ++ rest)).get? i = some v[i] := by
  rw [get?_ofCandidates, List.getElem?_append_left (by simpa using hi)]
  simp [hi]

theorem ranksAfter?_vector {i j : Nat} (hi : i < n) (hj : j < n) :
    (ofCandidates (v.toList ++ rest)).ranksAfter? metric i j =
      some (Candidate.ranksAfter metric v[i] v[j]) := by
  rw [ranksAfter?, get?_vector v rest hi, get?_vector v rest hj]
  rfl

theorem swap?_vector {i j : Nat} (hi : i < n) (hj : j < n) :
    (ofCandidates (v.toList ++ rest)).swap? i j =
      some (ofCandidates ((v.swap i j hi hj).toList ++ rest)) := by
  have hswap : ∀ {γ : Type} (f : Candidate → γ),
      Buffer.swap? ((v.toList ++ rest).map f).toArray i j =
        some (((v.swap i j hi hj).toList ++ rest).map f).toArray := by
    intro γ f
    have hsize : n ≤ ((v.toList ++ rest).map f).toArray.size := by simp
    rw [Buffer.swap?, dif_pos ⟨hi.trans_le hsize, hj.trans_le hsize⟩]
    refine congrArg some (Array.ext (by simp) fun m hm hm' => ?_)
    simp only [Array.getElem_swap, List.getElem_toArray, List.getElem_map]
    by_cases hmn : m < n
    · simp only [List.getElem_append_left, hi, hj, hmn, Vector.length_toList, Vector.getElem_toList,
        Vector.getElem_swap]
      split_ifs <;> rfl
    · have hmi : m ≠ i := by omega
      have hmj : m ≠ j := by omega
      simp only [hmi, hmj, if_false]
      rw [List.getElem_append_right (by simpa using hmn),
        List.getElem_append_right (by simpa using hmn)]
      simp
  simp only [swap?, ofCandidates, hswap]
  rfl

theorem siftUp?_vector {i : Nat} (hi : i < n) :
    (ofCandidates (v.toList ++ rest)).siftUp? metric i =
      some (ofCandidates ((Heap.siftUp (Candidate.ranksAfter metric) v i hi).toList ++ rest)) := by
  fun_induction Heap.siftUp (Candidate.ranksAfter metric) v i hi with
  | case1 v _ => rw [siftUp?, dif_pos rfl]
  | case2 v i hi hne parent hafter ih =>
    have hparent : parent < n := by omega
    rw [siftUp?, dif_neg hne, ranksAfter?_vector v rest hi hparent, swap?_vector v rest hi hparent]
    exact (if_pos hafter).trans ih
  | case3 v i hi hne parent hafter =>
    have hparent : parent < n := by omega
    rw [siftUp?, dif_neg hne, ranksAfter?_vector v rest hi hparent]
    exact if_neg hafter

theorem child?_vector {i m : Nat} (hm : m ≤ n) (h : 2 * i + 1 < m) :
    (ofCandidates (v.toList ++ rest)).child? metric i m h =
      some (Heap.child (Candidate.ranksAfter metric) v i m hm h) := by
  unfold child? Heap.child
  by_cases hright : 2 * i + 2 < m
  · rw [dif_pos hright, dif_pos hright, ranksAfter?_vector v rest (by omega) (by omega)]
    exact (apply_ite some _ _ _).symm
  · rw [dif_neg hright, dif_neg hright]

theorem siftDown?_vector {i m : Nat} (hm : m ≤ n) :
    (ofCandidates (v.toList ++ rest)).siftDown? metric i m = some (ofCandidates
      ((Heap.siftDown (Candidate.ranksAfter metric) v i m hm).toList ++ rest)) := by
  fun_induction Heap.siftDown (Candidate.ranksAfter metric) v i m hm with
  | case1 v i h c hc hchild hafter ih =>
    have hcn : c < n := by omega
    have hin : i < n := by omega
    rw [siftDown?, dif_pos h, child?_vector v rest hm h, hchild]
    simp only [bind, Option.bind, ranksAfter?_vector v rest hcn hin, if_pos hafter,
      swap?_vector v rest hcn hin, ih]
  | case2 v i h c hc hchild hafter =>
    have hcn : c < n := by omega
    have hin : i < n := by omega
    rw [siftDown?, dif_pos h, child?_vector v rest hm h, hchild]
    simp only [bind, Option.bind, ranksAfter?_vector v rest hcn hin, if_neg hafter]
  | case3 v i h => rw [siftDown?, dif_neg h]

theorem sort?_vector {m : Nat} (hm : m ≤ n) :
    (ofCandidates (v.toList ++ rest)).sort? metric m = some (ofCandidates
      ((Heap.sort (Candidate.ranksAfter metric) v m hm).toList ++ rest)) := by
  induction m generalizing v with
  | zero => rfl
  | succ m ih =>
    cases m with
    | zero =>
      -- A single entry is swapped with itself.
      have hsame : v.swap 0 0 hm hm = v := Vector.ext fun i hi => by
        simp only [Vector.getElem_swap]
        split_ifs <;> simp_all
      simp only [Heap.sort, hsame]
      rw [Heap.siftDown, dif_neg (Nat.not_lt_zero _)]
      rfl
    | succ m =>
      have hpos : 0 < n := by omega
      have hmn : m + 1 < n := by omega
      rw [sort?, swap?_vector v rest hpos hmn]
      simp only [bind, Option.bind, siftDown?_vector _ rest (Nat.le_of_lt hmn)]
      exact ih _ _

end Slots

/-- A collector in slots, of which the first `used` are in use. -/
structure SlotHeap where
  metric : Metric
  slots : Slots
  used : Nat

namespace SlotHeap

def new (metric : Metric) (s : Slots) : SlotHeap where
  metric := metric
  slots := ⟨.replicate s.distances.size metric.worst, .replicate s.labels.size noLabel⟩
  used := 0

def capacity (h : SlotHeap) : Nat := h.slots.labels.size

def push? (h : SlotHeap) (c : Candidate) : Option SlotHeap :=
  if c.label = noLabel then some h
  else if h.used < h.capacity then do
    let s ← h.slots.write? h.used c
    let s ← s.siftUp? h.metric h.used
    return { h with slots := s, used := h.used + 1 }
  else if 0 < h.capacity then do
    if Candidate.ranksAfter h.metric (← h.slots.get? 0) c then do
      let s ← h.slots.write? 0 c
      let s ← s.siftDown? h.metric 0 h.capacity
      return { h with slots := s }
    else some h
  else some h

def extend? (h : SlotHeap) (cs : Slots) : Option SlotHeap := cs.candidates.foldlM push? h

/-- Sorts what is there and fills the other slots with padding. -/
def finish? (h : SlotHeap) : Option Slots := do
  let s ← h.slots.sort? h.metric h.used
  s.fillFrom? h.used .padding

/-- The slots begin with what `t` keeps, and there are as many as `t` can keep. -/
structure Holds (h : SlotHeap) (t : TopK) : Prop where
  metric : h.metric = t.metric
  used : h.used = t.size
  slots : ∃ rest : List Candidate,
    h.slots = .ofCandidates (t.kept.toList ++ rest) ∧ t.size + rest.length = t.capacity

theorem Holds.new (metric : Metric) {s : Slots} {k : Nat} (hs : s.HasSize k) :
    (new metric s).Holds (.empty metric k) := by
  refine ⟨rfl, rfl, .replicate k ⟨metric.worst, noLabel⟩, ?_, by simp [TopK.empty, TopK.size]⟩
  simp [SlotHeap.new, TopK.empty, Slots.ofCandidates, hs.distances, hs.labels]

variable {h : SlotHeap} {t : TopK}

theorem Holds.capacity (hh : h.Holds t) : h.capacity = t.capacity := by
  obtain ⟨rest, hslots, hcapacity⟩ := hh.slots
  rw [SlotHeap.capacity, hslots, Slots.size_labels_ofCandidates, List.length_append, ← hcapacity]
  rfl

/-- A new entry goes to the first slot that is not in use. -/
theorem Holds.push_room (hh : h.Holds t) {c : Candidate} (hlabel : ¬c.label = noLabel)
    (hroom : t.kept.size < t.capacity)
    (hk : (t.push c).kept = (Heap.siftUp (Candidate.ranksAfter t.metric) (t.kept.push c).toVector
      t.kept.size (t.size_lt_push c)).toArray) :
    ∃ h', h.push? c = some h' ∧ h'.Holds (t.push c) := by
  have hlt : h.used < h.capacity := by rwa [hh.used, hh.capacity]
  obtain ⟨hmetric, hused, rest, hslots, hrest⟩ := hh
  obtain ⟨r, rest, rfl⟩ : ∃ r rest', rest = r :: rest' :=
    List.exists_cons_of_length_pos (by unfold TopK.size at hrest; omega)
  have hwrite : h.slots.write? h.used c =
      some (.ofCandidates ((t.kept.push c).toVector.toList ++ rest)) := by
    rw [hslots, hused, Slots.write?_ofCandidates (by simp [TopK.size])]
    simp [TopK.size]
  have hsift : (Slots.ofCandidates ((t.kept.push c).toVector.toList ++ rest)).siftUp? h.metric
      h.used = some (.ofCandidates ((t.push c).kept.toList ++ rest)) := by
    rw [hmetric, hused, hk]
    exact Slots.siftUp?_vector _ rest (t.size_lt_push c)
  have hsize : (t.push c).size = t.size + 1 := by simp [TopK.size, hk]
  refine ⟨⟨h.metric, .ofCandidates ((t.push c).kept.toList ++ rest), h.used + 1⟩, ?_, ?_⟩
  · rw [push?, if_neg hlabel, if_pos hlt, hwrite]
    simp only [bind, Option.bind, hsift]
    rfl
  · refine ⟨by simpa using hmetric, by simp [hsize, hused], rest, rfl, ?_⟩
    rw [hsize, TopK.push_capacity, ← hrest, List.length_cons]
    omega

theorem Holds.get?_root (hh : h.Holds t) (hpos : 0 < t.kept.size) :
    h.slots.get? 0 = some t.kept[0] := by
  obtain ⟨-, -, rest, hslots, -⟩ := hh
  rw [hslots]
  exact Slots.get?_vector t.kept.toVector rest hpos

/-- Where all slots are in use the new entry takes the place of the root. -/
theorem Holds.push_replace (hh : h.Holds t) {c : Candidate} (hlabel : ¬c.label = noLabel)
    (hfull : t.kept.size = t.capacity) (hpos : 0 < t.kept.size)
    (hafter : Candidate.ranksAfter t.metric t.kept[0] c = true)
    (hk : (t.push c).kept = (Heap.siftDown (Candidate.ranksAfter t.metric)
      (t.kept.toVector.set 0 c) 0 t.kept.size (Nat.le_refl _)).toArray) :
    ∃ h', h.push? c = some h' ∧ h'.Holds (t.push c) := by
  have hlt : ¬h.used < h.capacity := by rw [hh.used, hh.capacity, TopK.size]; omega
  have hcapacity : h.capacity = t.kept.size := by rw [hh.capacity, hfull]
  have hget := hh.get?_root hpos
  obtain ⟨hmetric, hused, rest, hslots, hrest⟩ := hh
  have hwrite : h.slots.write? 0 c =
      some (.ofCandidates ((t.kept.toVector.set 0 c).toList ++ rest)) := by
    rw [hslots, Slots.write?_ofCandidates (by simp; omega)]
    simp [List.set_append_left, hpos]
  have hsift : (Slots.ofCandidates ((t.kept.toVector.set 0 c).toList ++ rest)).siftDown? h.metric
      0 h.capacity = some (.ofCandidates ((t.push c).kept.toList ++ rest)) := by
    rw [hmetric, hcapacity, hk]
    exact Slots.siftDown?_vector _ rest (Nat.le_refl _)
  have hsize : (t.push c).size = t.size := by simp [TopK.size, hk]
  refine ⟨⟨h.metric, .ofCandidates ((t.push c).kept.toList ++ rest), h.used⟩, ?_, ?_⟩
  · rw [push?, if_neg hlabel, if_neg hlt, if_pos (by rwa [hcapacity]), hget, hwrite]
    simp only [bind, Option.bind, hsift]
    rw [hmetric, if_pos hafter]
    rfl
  · refine ⟨by simpa using hmetric, by simpa [hsize] using hused, rest, rfl, ?_⟩
    rw [hsize, TopK.push_capacity, hrest]

/-- An entry that does not beat the root is not kept. -/
theorem Holds.push?_of_not_after (hh : h.Holds t) {c : Candidate} (hlabel : ¬c.label = noLabel)
    (hfull : t.kept.size = t.capacity)
    (hafter : ∀ hpos : 0 < t.kept.size, ¬Candidate.ranksAfter t.metric t.kept[0] c = true) :
    h.push? c = some h := by
  have hlt : ¬h.used < h.capacity := by rw [hh.used, hh.capacity, TopK.size]; omega
  rw [push?, if_neg hlabel, if_neg hlt]
  by_cases hpos : 0 < t.kept.size
  · rw [if_pos (by rwa [hh.capacity, ← hfull]), hh.get?_root hpos]
    simp only [bind, Option.bind]
    rw [hh.metric, if_neg (hafter hpos)]
  · rw [if_neg (by rwa [hh.capacity, ← hfull])]

theorem Holds.push (hh : h.Holds t) (c : Candidate) :
    ∃ h', h.push? c = some h' ∧ h'.Holds (t.push c) := by
  have hlabelled : c.isLabelled = true → ¬c.label = noLabel := fun hl => by
    simpa [Candidate.isLabelled] using hl
  rcases TopK.push_cases t c with ⟨hl, hp, -⟩ | ⟨hl, hroom, -, hk⟩ |
    ⟨hl, hfull, hpos, hafter, -, hk⟩ | ⟨hl, hfull, hp, -, hafter⟩
  · have hlabel : c.label = noLabel := by simpa [Candidate.isLabelled] using hl
    exact ⟨h, if_pos hlabel, hp.symm ▸ hh⟩
  · exact hh.push_room (hlabelled hl) hroom hk
  · exact hh.push_replace (hlabelled hl) hfull hpos hafter hk
  · exact ⟨h, hh.push?_of_not_after (hlabelled hl) hfull hafter, hp.symm ▸ hh⟩

theorem Holds.pushEach {α : Type} {f : α → Option Candidate} {g : α → Candidate} {l : List α}
    (hh : h.Holds t) (hf : ∀ a ∈ l, f a = some (g a)) :
    ∃ h', l.foldlM (fun h a => do h.push? (← f a)) h = some h' ∧
      h'.Holds (t.extend (l.map g)) := by
  induction l generalizing h t with
  | nil => exact ⟨h, rfl, hh⟩
  | cons a l ih =>
    obtain ⟨h', hpush, hh'⟩ := hh.push (g a)
    obtain ⟨h'', hrest, hh''⟩ := ih hh' fun b hb => hf b (List.mem_cons_of_mem a hb)
    refine ⟨h'', ?_, hh''⟩
    rw [List.foldlM_cons, hf a List.mem_cons_self]
    exact (congrArg (Option.bind · _) hpush).trans hrest

theorem Holds.extend (hh : h.Holds t) (cs : Slots) :
    ∃ h', h.extend? cs = some h' ∧ h'.Holds (t.extend cs.candidates) := by
  have hloop := hh.pushEach (f := some) (g := id) (l := cs.candidates) fun _ _ => rfl
  rwa [List.map_id] at hloop

theorem Holds.finish? (hh : h.Holds t) : h.finish? = some (.ofCandidates t.finish) := by
  obtain ⟨hmetric, hused, rest, hslots, hrest⟩ := hh
  have hsort : h.slots.sort? h.metric h.used = some (.ofCandidates (t.sorted ++ rest)) := by
    rw [hslots, hmetric, hused]
    exact Slots.sort?_vector t.kept.toVector rest (Nat.le_refl _)
  have hpadding : t.capacity - t.size = rest.length := by omega
  rw [SlotHeap.finish?, hsort, TopK.finish, hpadding, hused, ← t.length_sorted]
  exact Slots.fillFrom?_ofCandidates _ _ _

end SlotHeap

end Neighbors
