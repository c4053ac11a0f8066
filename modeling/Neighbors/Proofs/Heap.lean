import Neighbors.Heap
import Mathlib

/-!
# The sifts and the sort

The sifts and the sort only move entries (`siftUp_perm`, `siftDown_perm`, `sort_perm`), whatever
the relation is. `Ranks after rank P` says that on entries with `P` the relation goes by `rank`:
then a sift mends the one place where its start is not a heap (`siftUp_isHeap`,
`siftDown_isHeap`), and the sort of a heap is ascending (`sort_ascending`).
-/

namespace Neighbors.Heap

variable {α : Type} {size : Nat} {after : α → α → Bool}

/-! ## Entries are only moved -/

theorem child_eq {v : Vector α size} {i n c : Nat} {hn : n ≤ size} {h : 2 * i + 1 < n}
    {hc : i < c ∧ c < n} (heq : child after v i n hn h = ⟨c, hc⟩) :
    c = 2 * i + 1 ∨ c = 2 * i + 2 := by
  unfold child at heq
  split at heq
  · split at heq
    · cases heq
      exact .inr rfl
    · cases heq
      exact .inl rfl
  · cases heq
    exact .inl rfl

theorem siftUp_perm (after : α → α → Bool) (v : Vector α size) (i : Nat) (h : i < size) :
    (siftUp after v i h).Perm v := by
  induction v, i, h using siftUp.induct after with
  | case1 v _ => rw [siftUp]; simp
  | case2 v i h hi parent hafter ih =>
    rw [siftUp, dif_neg hi, if_pos hafter]
    exact ih.trans (Vector.swap_perm _ _)
  | case3 v i h hi parent hafter =>
    rw [siftUp, dif_neg hi, if_neg hafter]

theorem siftDown_perm (after : α → α → Bool) (v : Vector α size) (i n : Nat) (hn : n ≤ size) :
    (siftDown after v i n hn).Perm v := by
  induction v, i using siftDown.induct after n hn with
  | case1 v i h c hc heq hafter ih =>
    rw [siftDown, dif_pos h]
    simp only [heq, hafter, ↓reduceIte]
    exact ih.trans (Vector.swap_perm _ _)
  | case2 v i h c hc heq hafter =>
    rw [siftDown, dif_pos h]
    simp only [heq, hafter]
    exact .refl _
  | case3 v i h => rw [siftDown, dif_neg h]

theorem sort_perm (after : α → α → Bool) (v : Vector α size) (n : Nat) (hn : n ≤ size) :
    (sort after v n hn).Perm v := by
  induction n generalizing v with
  | zero => exact .refl _
  | succ n ih =>
    exact ((ih _ _).trans (siftDown_perm after _ _ _ _)).trans (Vector.swap_perm _ _)

/-! ## Ranks and heaps -/

variable {β : Type} [LinearOrder β] {rank : α → β} {P : α → Prop}

/-- Among entries with `P`, the one that ranks higher is after the other. -/
def Ranks (after : α → α → Bool) (rank : α → β) (P : α → Prop) : Prop :=
  ∀ ⦃a b : α⦄, P a → P b → (after a b = true ↔ rank b < rank a)

theorem Ranks.le_of_not_after (hr : Ranks after rank P) {a b : α} (ha : P a) (hb : P b)
    (h : ¬after a b = true) : rank a ≤ rank b :=
  not_lt.1 fun hlt => h ((hr ha hb).2 hlt)

/-- None of the first `n` entries ranks above its parent. -/
def IsHeap (rank : α → β) (v : Vector α size) (n : Nat) (hn : n ≤ size) : Prop :=
  ∀ i (h : i < n), rank v[i] ≤ rank v[(i - 1) / 2]

theorem IsHeap.le_root {v : Vector α size} {n : Nat} {hn : n ≤ size} (hv : IsHeap rank v n hn)
    (i : Nat) (h : i < n) : rank v[i] ≤ rank v[0] := by
  induction i using Nat.strongRecOn with
  | ind i ih =>
    by_cases hi : i = 0
    · subst hi; exact le_refl _
    · exact (hv i h).trans (ih ((i - 1) / 2) (by omega) (by omega))

/-- A heap but for the entry at `i`, which may rank above its parent. Its children do not. -/
structure MendsUp (rank : α → β) (v : Vector α size) (i : Nat) : Prop where
  others : ∀ j (h : j < size) (hp : (j - 1) / 2 < size), j ≠ i → rank v[j] ≤ rank v[(j - 1) / 2]
  below : ∀ j (h : j < size) (hp : (i - 1) / 2 < size), (j - 1) / 2 = i → 0 < j →
    rank v[j] ≤ rank v[(i - 1) / 2]

theorem MendsUp.swap {v : Vector α size} {i : Nat} (m : MendsUp rank v i) (h : i < size)
    (hp : (i - 1) / 2 < size) (hi : i ≠ 0) (hlt : rank v[(i - 1) / 2] < rank v[i]) :
    MendsUp rank (v.swap i ((i - 1) / 2)) ((i - 1) / 2) := by
  have others := m.others
  have below := m.below
  constructor
  · intro j hj hpj hne
    by_cases hji : j = i
    · subst hji
      simpa using hlt.le
    · by_cases hpi : (j - 1) / 2 = i
      · have hle := below j hj hp hpi (by omega)
        grind
      · have hle := others j hj hpj hji
        grind
  · intro j hj hpp hpj hpos
    have hparent := others ((i - 1) / 2) hp hpp (by omega)
    by_cases hji : j = i
    · grind
    · have hle := others j hj (by omega) hji
      grind

theorem siftUp_isHeap (hr : Ranks after rank P) {v : Vector α size} {i : Nat} (h : i < size)
    (hP : ∀ a ∈ v, P a) (m : MendsUp rank v i) :
    IsHeap rank (siftUp after v i h) size (Nat.le_refl _) := by
  induction v, i, h using siftUp.induct after with
  | case1 v h =>
    rw [siftUp, dif_pos rfl]
    intro j hj
    by_cases hj0 : j = 0
    · subst hj0; exact le_refl _
    · exact m.others j hj (by omega) hj0
  | case2 v i h hi parent hafter ih =>
    rw [siftUp, dif_neg hi, if_pos hafter]
    have hlt := (hr (hP _ (v.getElem_mem h)) (hP _ (v.getElem_mem (by omega)))).1 hafter
    exact ih (fun a ha => hP a ((Vector.swap_perm _ _).mem_iff.1 ha)) (m.swap h (by omega) hi hlt)
  | case3 v i h hi parent hafter =>
    rw [siftUp, dif_neg hi, if_neg hafter]
    intro j hj
    by_cases hji : j = i
    · subst hji
      exact hr.le_of_not_after (hP _ (v.getElem_mem h)) (hP _ (v.getElem_mem (by omega))) hafter
    · exact m.others j hj (by omega) hji

/-- A heap of `n` entries but for the entry at `i`, which may rank below a child. Its parent does
not. -/
structure MendsDown (rank : α → β) (v : Vector α size) (i n : Nat) (hn : n ≤ size) : Prop where
  others : ∀ j (h : j < n), (j - 1) / 2 ≠ i → rank v[j] ≤ rank v[(j - 1) / 2]
  below : ∀ j (h : j < n) (hp : (j - 1) / 2 = i), i ≠ 0 → rank v[j] ≤ rank v[(i - 1) / 2]

theorem child_le (hr : Ranks after rank P) {v : Vector α size} {i n c : Nat} {hn : n ≤ size}
    (hP : ∀ a ∈ v, P a) {h : 2 * i + 1 < n} {hc : i < c ∧ c < n}
    (heq : child after v i n hn h = ⟨c, hc⟩) {j : Nat} (hj : j < n) (hpos : 0 < j)
    (hp : (j - 1) / 2 = i) : rank v[j] ≤ rank v[c] := by
  have hP' : ∀ l (hl : l < size), P v[l] := fun l hl => hP _ (v.getElem_mem hl)
  have hj' : j = 2 * i + 1 ∨ j = 2 * i + 2 := by omega
  unfold child at heq
  split at heq
  · split at heq
    · next hn' hafter =>
      cases heq
      have hlt := (hr (hP' _ (by omega)) (hP' _ (by omega))).1 hafter
      rcases hj' with rfl | rfl
      · exact le_of_lt hlt
      · exact le_refl _
    · next hn' hafter =>
      cases heq
      have hle := hr.le_of_not_after (hP' _ (by omega)) (hP' _ (by omega)) hafter
      rcases hj' with rfl | rfl
      · exact le_refl _
      · exact hle
  · cases heq
    rcases hj' with rfl | rfl
    · exact le_refl _
    · omega

theorem MendsDown.swap {v : Vector α size} {i n c : Nat} {hn : n ≤ size}
    (m : MendsDown rank v i n hn) (hic : i < c) (hc : c < n) (hpc : (c - 1) / 2 = i)
    (hmax : ∀ j (h : j < n), 0 < j → (j - 1) / 2 = i → rank v[j] ≤ rank v[c])
    (hlt : rank v[i] < rank v[c]) :
    MendsDown rank (v.swap c i) c n hn := by
  have others := m.others
  have below := m.below
  constructor
  · intro j hj hpj
    by_cases hpi : (j - 1) / 2 = i
    · by_cases hj0 : j = 0
      · subst hj0; exact le_refl _
      · have hle := hmax j hj (by omega) hpi
        grind
    · have hle := others j hj hpi
      by_cases hji : j = i
      · have hle := below c hc hpc (by omega)
        grind
      · grind
  · intro j hj hpj _
    have hle := others j hj (by omega)
    grind

theorem MendsDown.isHeap {v : Vector α size} {i n : Nat} {hn : n ≤ size}
    (m : MendsDown rank v i n hn)
    (hmax : ∀ j (h : j < n), 0 < j → (hp : (j - 1) / 2 = i) → rank v[j] ≤ rank v[i]) :
    IsHeap rank v n hn := by
  intro j hj
  by_cases hp : (j - 1) / 2 = i
  · by_cases hj0 : j = 0
    · subst hj0; exact le_refl _
    · have hle := hmax j hj (by omega) hp
      grind
  · exact m.others j hj hp

theorem siftDown_isHeap (hr : Ranks after rank P) {v : Vector α size} {i n : Nat}
    {hn : n ≤ size} (hP : ∀ a ∈ v, P a) (m : MendsDown rank v i n hn) :
    IsHeap rank (siftDown after v i n hn) n hn := by
  induction v, i using siftDown.induct after n hn with
  | case1 v i h c hc heq hafter ih =>
    rw [siftDown, dif_pos h]
    simp only [heq, hafter, ↓reduceIte]
    have hchild := child_eq heq
    have hmax : ∀ j (h : j < n), 0 < j → (j - 1) / 2 = i → rank v[j] ≤ rank v[c] :=
      fun j hj => child_le hr hP heq hj
    have hlt := (hr (hP _ (v.getElem_mem (by omega))) (hP _ (v.getElem_mem (by omega)))).1 hafter
    exact ih (fun a ha => hP a ((Vector.swap_perm _ _).mem_iff.1 ha))
      (m.swap hc.1 hc.2 (by omega) hmax hlt)
  | case2 v i h c hc heq hafter =>
    rw [siftDown, dif_pos h]
    simp only [heq, hafter]
    have hle := hr.le_of_not_after (hP _ (v.getElem_mem (by omega)))
      (hP _ (v.getElem_mem (by omega))) hafter
    exact m.isHeap fun j hj hpos hp => (child_le hr hP heq hj hpos hp).trans hle
  | case3 v i h =>
    rw [siftDown, dif_neg h]
    exact m.isHeap fun j hj hpos hp => by omega

/-! ## The sort -/

theorem siftDown_getElem_of_le (v : Vector α size) {i n j : Nat} (hn : n ≤ size) (hnj : n ≤ j)
    (hj : j < size) : (siftDown after v i n hn)[j] = v[j] := by
  induction v, i using siftDown.induct after n hn with
  | case1 v i h c hc heq hafter ih =>
    rw [siftDown, dif_pos h]
    simp only [heq, hafter, ↓reduceIte]
    rw [ih, Vector.getElem_swap_of_ne (by omega) (by omega)]
  | case2 v i h c hc heq hafter =>
    rw [siftDown, dif_pos h]
    simp only [heq, hafter]
    rfl
  | case3 v i h => rw [siftDown, dif_neg h]

theorem siftDown_forall (Q : α → Prop) (v : Vector α size) {i n : Nat} (hn : n ≤ size)
    (hQ : ∀ j (h : j < n), Q v[j]) (j : Nat) (hj : j < n) : Q (siftDown after v i n hn)[j] := by
  induction v, i using siftDown.induct after n hn with
  | case1 v i h c hc heq hafter ih =>
    rw [siftDown, dif_pos h]
    simp only [heq, hafter, ↓reduceIte]
    refine ih fun l hl => ?_
    have hQi := hQ i (by omega)
    have hQc := hQ c hc.2
    have hQl := hQ l hl
    grind
  | case2 v i h c hc heq hafter =>
    rw [siftDown, dif_pos h]
    simp only [heq, hafter]
    exact hQ j hj
  | case3 v i h =>
    rw [siftDown, dif_neg h]
    exact hQ j hj

/-- From position `n` on the entries are in their final order, above all before them. -/
def Settled (rank : α → β) (v : Vector α size) (n : Nat) : Prop :=
  ∀ i j (hij : i ≤ j) (h : j < size), n ≤ j → rank v[i] ≤ rank v[j]

theorem Settled.swap {v : Vector α size} {n : Nat} (h0 : 0 < size) (hn : n < size)
    (hv : IsHeap rank v (n + 1) hn) (hs : Settled rank v (n + 1)) :
    Settled rank (v.swap 0 n) n := by
  intro i j hij hj hnj
  by_cases hjn : j = n
  · subst hjn
    have hroot := hv.le_root
    grind
  · have h0 := hs 0 j (by omega) hj (by omega)
    have hn := hs n j (by omega) hj (by omega)
    have hi := hs i j hij hj (by omega)
    grind

/-- One step of the sort: the root goes behind the heap, and the rest is made a heap again. -/
theorem Settled.step (hr : Ranks after rank P) {v : Vector α size} {n : Nat} (h0 : 0 < size)
    (hn : n < size) (hP : ∀ a ∈ v, P a) (hv : IsHeap rank v (n + 1) hn)
    (hs : Settled rank v (n + 1)) :
    IsHeap rank (siftDown after (v.swap 0 n) 0 n (Nat.le_of_lt hn)) n (Nat.le_of_lt hn) ∧
      Settled rank (siftDown after (v.swap 0 n) 0 n (Nat.le_of_lt hn)) n := by
  have hPw : ∀ a ∈ v.swap 0 n, P a := fun a ha => hP a ((Vector.swap_perm _ _).mem_iff.1 ha)
  have hw : Settled rank (v.swap 0 n) n := hs.swap h0 hn hv
  constructor
  · refine siftDown_isHeap hr hPw ⟨fun j hj hp => ?_, fun j hj hp hi => absurd rfl hi⟩
    have hle := hv j (by omega)
    grind
  · intro i j hij hj hnj
    rw [siftDown_getElem_of_le _ _ hnj hj]
    by_cases hin : i < n
    · exact siftDown_forall (fun a => rank a ≤ rank (v.swap 0 n)[j]) _ _
        (fun l hl => hw l j (by omega) hj hnj) i hin
    · rw [siftDown_getElem_of_le _ _ (by omega) (by omega)]
      exact hw i j hij hj hnj

theorem sort_settled (hr : Ranks after rank P) {v : Vector α size} {n : Nat} {hn : n ≤ size}
    (hP : ∀ a ∈ v, P a) (hv : IsHeap rank v n hn) (hs : Settled rank v n) :
    Settled rank (sort after v n hn) 0 := by
  induction n generalizing v with
  | zero => exact hs
  | succ n ih =>
    obtain ⟨hv', hs'⟩ := hs.step hr (Nat.zero_lt_of_lt hn) hn hP hv
    refine ih (fun a ha => hP a ?_) hv' hs'
    exact (Vector.swap_perm _ _).mem_iff.1 ((siftDown_perm after _ _ _ _).mem_iff.1 ha)

theorem sort_ascending (hr : Ranks after rank P) {v : Vector α size} (hP : ∀ a ∈ v, P a)
    (hv : IsHeap rank v size (Nat.le_refl _)) :
    (sort after v size (Nat.le_refl _)).toList.Pairwise fun a b => rank a ≤ rank b := by
  have hs : Settled rank (sort after v size (Nat.le_refl _)) 0 :=
    sort_settled hr hP hv fun i j hij hj hle => by omega
  rw [List.pairwise_iff_getElem]
  intro i j hi hj hij
  simp only [Vector.getElem_toList]
  exact hs i j (Nat.le_of_lt hij) (by simpa using hj) (Nat.zero_le _)

end Neighbors.Heap
