import Neighbors.Proofs.Tower.Aligned
import Neighbors.Proofs.Tower.Stored

/-!
# Searches with reconstruction

A search with reconstruction collects a row for each slot, so that slot `j` has the block of
components `j`. Where all that a search finds can be reconstructed, no more can fail in it than the
sizes of the buffers and the search itself
(`Index.ReconstructsFound.searchAndReconstruct_error_iff`), and a block is what its label alone is
reconstructed to (`Tower.Reachable.reconstructs_search`). That is so if the slots for all candidates
have a number of 64 bits.
-/

namespace Neighbors

namespace Index

variable {σ : Type} [Index σ]

/-- What a label is reconstructed to over a row of NaN; an empty slot leaves that row. -/
def rowFor (s : σ) (l : Label) : Floats :=
  if l = noLabel then .replicate (dimension s) .nan
  else (reconstruct s l (.replicate (dimension s) .nan)).state

/-- The rows of the first labels in a buffer of `size` components, as many as it has room for. -/
def rowsFor (s : σ) (size : Nat) (labels : List Label) : Floats :=
  ((labels.take (size / dimension s)).flatMap fun l => (rowFor s l).toList).toArray ++
    Array.replicate (size % dimension s) .nan

/-! ## Blocks -/

section

variable {s : σ} {size : Nat} {labels : List Label}

theorem size_rowsFor (hrow : ∀ l ∈ labels, (rowFor s l).size = dimension s)
    (hsize : size ≤ labels.length * dimension s) : (rowsFor s size labels).size = size := by
  have hlen : ∀ l ∈ labels.take (size / dimension s), (rowFor s l).toList.length = dimension s :=
    fun l hl => hrow l (List.mem_of_mem_take hl)
  have hrows : size / dimension s ≤ labels.length := Nat.div_le_of_le_mul (by rwa [Nat.mul_comm])
  rw [rowsFor, Array.size_append, List.size_toArray, Slots.length_flatMap hlen, List.length_take,
    Nat.min_eq_left hrows, Array.size_replicate]
  exact Nat.div_add_mod' size (dimension s)

theorem extract_rowsFor (hd : 0 < dimension s)
    (hrow : ∀ l ∈ labels, (rowFor s l).size = dimension s) {j : Nat} (hj : j < labels.length)
    (hroom : (j + 1) * dimension s ≤ size) :
    (rowsFor s size labels).extract (j * dimension s) ((j + 1) * dimension s) =
      rowFor s labels[j] := by
  have hlen : ∀ l ∈ labels.take (size / dimension s), (rowFor s l).toList.length = dimension s :=
    fun l hl => hrow l (List.mem_of_mem_take hl)
  have hblock : j < size / dimension s := (Nat.le_div_iff_mul_le hd).2 hroom
  have hwidth : (j + 1) * dimension s - j * dimension s = dimension s := by
    rw [Nat.succ_mul, Nat.add_sub_cancel_left]
  have htake : j < (labels.take (size / dimension s)).length := by
    rw [List.length_take]
    exact Nat.lt_min.2 ⟨hblock, hj⟩
  have hend : (j + 1) * dimension s ≤
      ((labels.take (size / dimension s)).flatMap fun l => (rowFor s l).toList).toArray.size := by
    rw [List.size_toArray, Slots.length_flatMap hlen]
    exact Nat.mul_le_mul_right _ htake
  refine Array.toList_inj.1 ?_
  rw [rowsFor, Array.extract_append_of_stop_le_size_left hend, Array.toList_extract,
    List.extract_eq_take_drop, hwidth, Slots.take_drop_flatMap hlen htake, List.getElem_take]

theorem stageRows_of_done (hrows : ∀ l ∈ labels, l ≠ noLabel →
    reconstruct s l (.replicate (dimension s) .nan) = .done (rowFor s l)) :
    stageRows (reconstruct s) (dimension s) size labels = .ok (rowsFor s size labels) := by
  rw [stageRows, collectRows_of_done (rowFor s) fun l hl => hrows l (List.mem_of_mem_take hl)]
  -- An empty slot gets a row of NaN of its own, which is what `rowFor` gives it.
  have hrow : ∀ l ∈ labels.take (size / dimension s),
      (if l = noLabel then Array.replicate (dimension s) .nan else rowFor s l).toList =
        (rowFor s l).toList := by
    intro l _
    split
    · next hnone => rw [rowFor, if_pos hnone]
    · rfl
  rw [List.flatMap_congr hrow]
  rfl

end

/-! ## What a search is followed by -/

section

variable [Sized σ] {s : σ} {x : Floats} {k : Nat} {out found : Slots} {vectors : Floats}

theorem ReconstructsFound.reconstruct_rowFor (hs : ReconstructsFound s)
    (hfits : Sized.fits s x k)
    (h : Index.search s x k out = .done found) {l : Label} (hl : l ∈ found.labels)
    (hne : l ≠ noLabel) :
    Index.reconstruct s l (.replicate (dimension s) .nan) = .done (rowFor s l) := by
  have hfound := hs.found x k out (.inl hfits) (congrArg Outcome.answer h)
  rw [h] at hfound
  have hstored := (Label.proposable_iff.1 (hfound l hl)).resolve_left hne
  rw [rowFor, if_neg hne]
  exact Outcome.eq_done (hs.stored l _ hstored Array.size_replicate)

theorem ReconstructsFound.size_rowFor (hs : ReconstructsFound s) (hfill : FillsBuffers s)
    (hfits : Sized.fits s x k)
    (h : Index.search s x k out = .done found) {l : Label} (hl : l ∈ found.labels) :
    (rowFor s l).size = dimension s := by
  by_cases hne : l = noLabel
  · rw [rowFor, if_pos hne, Array.size_replicate]
  · have hrow := hfill.reconstruct (hs.reconstruct_rowFor hfits h hl hne)
    rwa [Array.size_replicate] at hrow

theorem ReconstructsFound.searchAndReconstruct_of_search (hs : ReconstructsFound s)
    (hfill : FillsBuffers s)
    (hfits : Sized.fits s x k)
    (h : Index.search s x k out = .done found)
    (hvectors : vectors.size = Count.mul (Count.mul (x.size / dimension s) k) (dimension s)) :
    searchAndReconstruct s x k out vectors =
      .done (found, rowsFor s vectors.size found.labels.toList) := by
  obtain ⟨nq, hshape, -⟩ := hfill.search h
  have hok : (Index.search s x k out).answer = .ok () := congrArg Outcome.answer h
  rw [← eq_div_of_checkShape hshape] at hvectors
  rcases searchAndReconstruct_cases s x k out vectors with ⟨e, hbad, -⟩ | ⟨nq', hgood,
    ⟨hsize, -⟩ | ⟨-, ⟨e, hfail, -⟩ | ⟨e, -, hafter, -⟩ | ⟨rows, -, hcollect, hdone⟩⟩⟩
  · exact nomatch hshape.symm.trans hbad
  · cases hshape.symm.trans hgood
    exact absurd hvectors hsize
  · exact nomatch hok.symm.trans hfail
  · exact absurd hafter (hs.not_failsAfterSearch (.inl hfits) hok)
  · cases hshape.symm.trans hgood
    rw [h, ← hvectors, Outcome.done, stageRows_of_done fun l hl hne =>
      hs.reconstruct_rowFor hfits h (Array.mem_toList_iff.1 hl) hne] at hcollect
    rw [hdone, h, ← Except.ok.inj hcollect]
    rfl

/-- Only the sizes of the buffers and the search itself make a search with reconstruction fail. -/
theorem ReconstructsFound.searchAndReconstruct_error_iff (hs : ReconstructsFound s)
    (hfill : FillsBuffers s)
    (hfits : Sized.fits s x k) (vectors : Floats) :
    let size := Count.mul (x.size / dimension s) k
    (∃ e, (searchAndReconstruct s x k out vectors).answer = .error e) ↔
      out.distances.size ≠ size ∨ out.labels.size ≠ size ∨
      vectors.size ≠ Count.mul size (dimension s) ∨
      ∃ e, (Index.search s x k out).answer = .error e := by
  intro size
  cases hanswer : (Index.search s x k out).answer with
  | error e =>
    refine iff_of_true ?_ (.inr (.inr (.inr ⟨e, rfl⟩)))
    rcases searchAndReconstruct_cases s x k out vectors with ⟨e, -, h⟩ | ⟨nq, -,
      ⟨-, h⟩ | ⟨-, ⟨e, -, h⟩ | ⟨e, hok, -, -⟩ | ⟨rows, hok, -, -⟩⟩⟩
    · exact ⟨e, congrArg Outcome.answer h⟩
    · exact ⟨_, congrArg Outcome.answer h⟩
    · exact ⟨e, congrArg Outcome.answer h⟩
    · exact nomatch hanswer.symm.trans hok
    · exact nomatch hanswer.symm.trans hok
  | ok u =>
    have hdone := Outcome.eq_done hanswer
    obtain ⟨nq, hshape, -⟩ := hfill.search hdone
    have hsize := (checkShape_eq_ok_iff.1 hshape).2
    rw [eq_div_of_checkShape hshape] at hsize
    by_cases hvectors : vectors.size = Count.mul size (dimension s)
    · rw [hs.searchAndReconstruct_of_search hfill hfits hdone hvectors]
      simp [hsize.distances, hsize.labels, hvectors, Outcome.done, size]
    · refine iff_of_true ⟨.dimensionMismatch (Count.mul size (dimension s)) vectors.size, ?_⟩
        (.inr (.inr (.inl hvectors)))
      simp only [size, ← eq_div_of_checkShape hshape] at hvectors ⊢
      simp only [searchAndReconstruct, hshape, if_pos hvectors]
      rfl

theorem ReconstructsFound.searchAndReconstruct_ok (hs : ReconstructsFound s)
    (hfill : FillsBuffers s)
    (hfits : Sized.fits s x k)
    (h : (searchAndReconstruct s x k out vectors).answer = .ok ()) :
    ∃ found, Index.search s x k out = .done found ∧
      found.HasSize (Count.mul (x.size / dimension s) k) ∧
      vectors.size = Count.mul (Count.mul (x.size / dimension s) k) (dimension s) ∧
      searchAndReconstruct s x k out vectors =
        .done (found, rowsFor s vectors.size found.labels.toList) := by
  have hnone : ¬∃ e, (searchAndReconstruct s x k out vectors).answer = .error e :=
    fun ⟨e, he⟩ => nomatch h.symm.trans he
  have hgood := mt (hs.searchAndReconstruct_error_iff hfill hfits vectors).2 hnone
  simp only [not_or, not_not, not_exists] at hgood
  obtain ⟨-, -, hvectors, hsearch⟩ := hgood
  have hanswer : (Index.search s x k out).answer = .ok () := by
    cases ha : (Index.search s x k out).answer with
    | error e => exact absurd ha (hsearch e)
    | ok u => rfl
  have hdone := Outcome.eq_done hanswer
  obtain ⟨nq, hshape, hsize⟩ := hfill.search hdone
  rw [eq_div_of_checkShape hshape] at hsize
  exact ⟨_, hdone, hsize, hvectors, hs.searchAndReconstruct_of_search hfill hfits hdone hvectors⟩

/-- A label out of range is not reported where the search alone does not. -/
theorem ReconstructsFound.searchAndReconstruct_ne_labelOutOfRange (hs : ReconstructsFound s)
    (hrange : FindsInRange s)
    (hfits : Sized.fits s x k) (vectors : Floats)
    (l : Label) (c : Nat) :
    (searchAndReconstruct s x k out vectors).answer ≠ .error (.labelOutOfRange l c) := by
  intro herror
  rcases searchAndReconstruct_cases s x k out vectors with ⟨e, hshape, h⟩ | ⟨nq, -,
    ⟨-, h⟩ | ⟨-, ⟨e, hsearch, h⟩ | ⟨e, hok, hafter, -⟩ | ⟨rows, -, -, h⟩⟩⟩
  · cases herror.symm.trans (congrArg Outcome.answer h)
    exact checkShape_ne_labelOutOfRange hshape rfl
  · cases herror.symm.trans (congrArg Outcome.answer h)
  · cases herror.symm.trans (congrArg Outcome.answer h)
    exact hrange x k out l c hsearch
  · exact hs.not_failsAfterSearch (.inl hfits) hok hafter
  · cases herror.symm.trans (congrArg Outcome.answer h)

end

end Index

open Index

namespace Tower

variable {n : Nat} {t : Tower Stock n}

/-- What a found label is reconstructed to does not depend on what the buffer for it held. -/
theorem Reachable.reconstruct_rowFor (h : Reachable t) {x : Floats} {k : Nat} {out found : Slots}
    (hfits : Sized.fits t x k) (hdone : Index.search t x k out = .done found) {l : Label}
    (hl : l ∈ found.labels) (hne : l ≠ noLabel) (hstored : count t * dimension t ≤ Count.limit)
    {row : Floats} (hrow : row.size = dimension t) :
    Index.reconstruct t l row = .done (rowFor t l) := by
  have hfound : ReconstructsFound t := reconstructsFound h.sound_core
  have hlabels := hfound.found x k out (.inl hfits) (congrArg Outcome.answer hdone)
  rw [hdone] at hlabels
  have hl' := (Label.proposable_iff.1 (hlabels l hl)).resolve_left hne
  rw [(readsFrom t).reconstruct_eq hstored hl' Array.size_replicate hrow]
  exact hfound.reconstruct_rowFor hfits hdone hl hne

/-- A search with reconstruction fails just if a buffer has the wrong size or the search alone
fails, and never for a label. When it succeeds its slots are those of the search, and slot `j` has
block `j` of the components: what its label is reconstructed to, whatever the buffer for it holds,
or NaN throughout if the slot is empty. The slots for all candidates have to have a number of 64
bits for this. The vectors are compared with the last 64 bits of the number of their components, and
a block is there if there is room for it. -/
theorem Reachable.reconstructs_search (h : Reachable t) {x : Floats} {k : Nat} {out : Slots}
    (hfits : Sized.fits t x k) (vectors : Floats) :
    let d := dimension t
    let size := x.size / d * k
    let total := Count.mul size d
    let left := searchAndReconstruct t x k out vectors
    (size * d ≤ Count.limit → total = size * d) ∧
    ((∃ e, left.answer = .error e) ↔ out.distances.size ≠ size ∨ out.labels.size ≠ size ∨
      vectors.size ≠ total ∨ ∃ e, (Index.search t x k out).answer = .error e) ∧
    (∀ l c, left.answer ≠ .error (.labelOutOfRange l c)) ∧
    (left.answer = .ok () → Index.search t x k out = .done left.state.1 ∧
      left.state.1.HasSize size ∧ left.state.2.size = total ∧
      ∀ (j : Nat) (hj : j < left.state.1.labels.size), (j + 1) * d ≤ total →
        let l := left.state.1.labels[j]
        let block := left.state.2.extract (j * d) ((j + 1) * d)
        (l = noLabel → block = .replicate d .nan) ∧
        (l ≠ noLabel → Index.reconstruct t l (.replicate d .nan) = .done block ∧
          (count t * d ≤ Count.limit → ∀ row : Floats, row.size = d →
            Index.reconstruct t l row = .done block))) := by
  intro d size total left
  have hs : ReconstructsFound t := reconstructsFound h.sound_core
  have hfill : FillsBuffers t := fillsBuffers t
  have hrange : FindsInRange t := h.aligned.findsInRange h.sound_core
  have hslots : Count.mul (x.size / d) k = size := Count.mul_eq (Sized.slots_le hfits)
  have herror : (∃ e, left.answer = .error e) ↔ _ :=
    hs.searchAndReconstruct_error_iff hfill hfits vectors
  simp only [hslots, d] at herror
  refine ⟨Count.mul_eq, herror, hs.searchAndReconstruct_ne_labelOutOfRange hrange hfits vectors,
    fun hok => ?_⟩
  obtain ⟨found, hdone, hsize, hvectors, hleft⟩ := hs.searchAndReconstruct_ok hfill hfits hok
  rw [hslots] at hsize hvectors
  have hrow : ∀ l ∈ found.labels.toList, (rowFor t l).size = d :=
    fun l hl => hs.size_rowFor hfill hfits hdone (Array.mem_toList_iff.1 hl)
  have htotal : total ≤ found.labels.toList.length * d := by
    rw [Array.length_toList, hsize.labels]
    exact Count.mul_le size d
  rw [hvectors] at hleft
  rw [show left = _ from hleft]
  refine ⟨hdone, hsize, size_rowsFor hrow htotal, fun j hj hroom => ?_⟩
  intro l block
  have hblock : block = rowFor t l := extract_rowsFor hfill.dimension_pos hrow hj hroom
  have hl : l ∈ found.labels := Array.getElem_mem hj
  rw [hblock]
  refine ⟨fun hnone => ?_, fun hne => ⟨hs.reconstruct_rowFor hfits hdone hl hne, ?_⟩⟩
  · rw [rowFor, if_pos hnone]
  · exact fun hstored row hsize => h.reconstruct_rowFor hfits hdone hl hne hstored hsize

/-- One vector for the two slots of each of two queries, and a buffer that is too short. For two
queries with `2 ^ 63` candidates each there is no slot at all, and what the slots held is taken for
a label. -/
theorem reconstructs_search_padded :
    let empty : Flat := ⟨⟨2, #[], by decide, by decide⟩, .l2⟩
    let r : Refined (Tower Stock 0) := ⟨.inl empty, empty, .one, true⟩
    let t : Tower Stock 1 := (Index.add r #[.one, .nan]).state
    let x : Floats := #[.zero, .one, .one, .one]
    let out : Slots := ⟨.replicate 4 .zero, .replicate 4 7⟩
    let left := searchAndReconstruct t x 2 out (.replicate 8 .zero)
    let greedy : Tower Stock 1 := (r.setFactor ⟨false, 0x5f000000, by decide⟩).state
    Reachable t ∧ left.answer = .ok () ∧ left.state.1.labels = #[0, noLabel, 0, noLabel] ∧
      Index.reconstruct t 0 #[.zero, .zero] = .done (left.state.2.extract 4 6) ∧
      left.state.2.extract 6 8 = #[.nan, .nan] ∧
      (∃ e, (searchAndReconstruct t x 2 out (.replicate 7 .zero)).answer = .error e) ∧
      Reachable greedy ∧ (Index.search greedy x 1 ⟨#[.zero, .zero], #[7, 7]⟩).answer = .ok () ∧
      (searchAndReconstruct greedy x 1 ⟨#[.zero, .zero], #[7, 7]⟩ (.replicate 4 .zero)).answer =
        .error (.labelOutOfRange 7 0) := by
  intro empty r t x out left greedy
  have hempty : Flat.empty 2 .l2 = .ok empty := rfl
  have hbase : Refined.ofBase (β := Tower Stock 0) (.inl empty) {} = .ok r := by
    dsimp only [r, empty]
    rfl
  have hr : @Reachable 1 r := .refine (.flat hempty) hbase
  have ht : Reachable t := .add _ hr
  have hfits : Sized.fits t x 2 :=
    ⟨by decide +kernel, by decide +kernel, (Stock.fits_iff ..).2 (by decide +kernel)⟩
  have hok : left.answer = .ok () := by decide +kernel
  have hlabels : left.state.1.labels = #[0, noLabel, 0, noLabel] := by decide +kernel
  have hsize : left.state.1.labels.size = 4 := congrArg Array.size hlabels
  have htwo : 2 < left.state.1.labels.size := by omega
  have hthree : 3 < left.state.1.labels.size := by omega
  have hzero : left.state.1.labels[2] = 0 := by simp [hlabels]
  have hnone : left.state.1.labels[3] = noLabel := by simp [hlabels]
  obtain ⟨-, -, -, hfound⟩ := ht.reconstructs_search hfits (.replicate 8 .zero)
  obtain ⟨-, -, -, hblocks⟩ := hfound hok
  have hstored := (hblocks 2 htwo (by decide +kernel)).2 (by rw [hzero]; decide)
  have hblank := (hblocks 3 hthree (by decide +kernel)).1 hnone
  have hd : dimension t = 2 := by decide +kernel
  rw [hzero, hd] at hstored
  rw [hd] at hblank
  refine ⟨ht, hok, hlabels, ?_, hblank, ?_, .setFactor _ hr, by decide +kernel, by decide +kernel⟩
  · exact hstored.2 (by decide +kernel) #[.zero, .zero] (by decide +kernel)
  · exact (ht.reconstructs_search hfits (.replicate 7 .zero)).2.1.2
      (.inr (.inr (.inl (by decide +kernel))))

end Tower

end Neighbors
