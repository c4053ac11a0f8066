import Neighbors.Proofs.Failure
import Neighbors.Proofs.Removal

/-!
# Vectors followed through removals

`Flat.Tracks f ts`: additions and removals have led from an empty index to `f`, and `ts` has every
vector that was added on the way, with its label of now. The label goes through the map of each
removal; `Tracked.picked` says whether a selector was ever true of it. What is left of `ts` is the
storage, row by row (`Tracks.inStep`), so that each label is that of one vector, and a vector has
none just if it was picked (`Tracks.label_of_added`).
-/

namespace Neighbors.Flat

/-- A vector that was added, the label that it has now, and whether a removal has picked it. -/
structure Tracked where
  vector : Floats
  label : Option Label
  picked : Bool
  deriving DecidableEq

/-- What a removal does to a vector: its label goes through the map, and it counts as picked if the
selector holds of the label it had before. -/
def Tracked.carry (selector : Selector) (map : Compaction) (t : Tracked) : Tracked where
  vector := t.vector
  label := t.label.bind map.newLabel?
  picked := t.picked || t.label.any selector.isMember

/-- The vectors of a batch under the labels that follow those of `f`. -/
def received (f : Flat) (x : Floats) : List Tracked :=
  (Scan.rows f.dimension x).mapIdx fun j v => ⟨v, some (f.count + j : Nat), false⟩

/-- Additions, failing ones included, and removals have led to `f`; `ts` has the vectors that were
added in the order of their addition. -/
inductive Tracks : Flat → List Tracked → Prop where
  | empty {d : Nat} {metric : Metric} {f : Flat} : Flat.empty d metric = .ok f → Tracks f []
  | add {f : Flat} {ts : List Tracked} (x : Floats) : Tracks f ts →
      (Index.add f x).answer = .ok () → Tracks (Index.add f x).state (ts ++ f.received x)
  | addFails {f : Flat} {ts : List Tracked} {x : Floats} {e : Error} : Tracks f ts →
      (Index.add f x).answer = .error e → Tracks (Index.add f x).state ts
  | remove {f : Flat} {ts : List Tracked} (selector : Selector) : Tracks f ts →
      Tracks (f.remove selector).1 (ts.map (Tracked.carry selector (f.remove selector).2))

def Tracked.stored? (t : Tracked) : Option (Label × Floats) := t.label.map fun l => (l, t.vector)

/-- What is left of the vectors is the storage, and the others have been picked. -/
structure InStep (f : Flat) (ts : List Tracked) : Prop where
  stored : ts.filterMap Tracked.stored? = f.storage.labelled
  picked : ∀ t ∈ ts, t.label.isSome = !t.picked

variable {f : Flat} {ts : List Tracked} {x : Floats} {selector : Selector}

theorem mem_labelled {l : Label} {v : Floats} :
    (l, v) ∈ f.storage.labelled ↔
      0 ≤ l ∧ l < f.count ∧ rowOf f.dimension f.vectors l.toNat = v := by
  rw [Storage.labelled_eq_map]
  constructor
  · intro h
    obtain ⟨j, hj, heq⟩ := List.mem_map.1 h
    cases heq
    have hlt := List.mem_range.1 hj
    exact ⟨Int.natCast_nonneg j, Int.ofNat_lt.2 hlt, by rw [Int.toNat_natCast]; rfl⟩
  · rintro ⟨hl, hlt, rfl⟩
    refine List.mem_map.2 ⟨l.toNat, List.mem_range.2 ((Int.toNat_lt hl).2 hlt), ?_⟩
    rw [Int.toNat_of_nonneg hl]
    rfl

/-! ## Steps -/

theorem toList_add (h : (Index.add f x).answer = .ok ()) :
    (Index.add f x).state.storage.toList = f.storage.toList ++ Scan.rows f.dimension x := by
  obtain ⟨storage, happend, hstate⟩ := map_eq_ok_iff.1 (Outcome.eq_ok_of_replace h)
  have hrows : storage.toList = f.storage.toList ++ Scan.rows f.storage.dimension x :=
    Storage.toList_append happend
  exact (congrArg (fun g : Flat => g.storage.toList) hstate.symm).trans hrows

theorem filterMap_received (f : Flat) (x : Floats) : (f.received x).filterMap Tracked.stored? =
    (Scan.rows f.dimension x).mapIdx fun j v => (((f.count + j : Nat) : Int), v) := by
  rw [received, List.mapIdx_eq_zipIdx_map, List.mapIdx_eq_zipIdx_map, List.filterMap_map]
  exact congrFun List.filterMap_eq_map _

theorem InStep.add (h : InStep f ts) (hok : (Index.add f x).answer = .ok ()) :
    InStep (Index.add f x).state (ts ++ f.received x) where
  stored := by
    rw [List.filterMap_append, h.stored, filterMap_received, Storage.labelled, Storage.labelled,
      toList_add hok, List.mapIdx_append, Storage.length_toList]
    simp only [Nat.add_comm]
    rfl
  picked t ht := by
    rcases List.mem_append.1 ht with ht | ht
    · exact h.picked t ht
    · obtain ⟨j, hj, rfl⟩ := List.mem_mapIdx.1 ht
      rfl

theorem stored?_carry (map : Compaction) (t : Tracked) : (t.carry selector map).stored? =
    t.stored?.bind fun (l, v) => (map.newLabel? l).map fun new => (new, v) := by
  cases t with
  | mk vector label picked => cases label <;> rfl

theorem labelled_remove (f : Flat) (selector : Selector) :
    (f.remove selector).1.storage.labelled = f.storage.labelled.filterMap fun (l, v) =>
      ((f.remove selector).2.newLabel? l).map fun new => (new, v) :=
  f.storage.labelled_compact fun i => selector.isMember i

theorem InStep.remove (h : InStep f ts) (selector : Selector) :
    InStep (f.remove selector).1 (ts.map (Tracked.carry selector (f.remove selector).2)) where
  stored := by
    rw [labelled_remove, ← h.stored, List.filterMap_filterMap, List.filterMap_map]
    exact congrArg (fun g => ts.filterMap g) (funext (stored?_carry _))
  picked t ht := by
    obtain ⟨t, hmem, rfl⟩ := List.mem_map.1 ht
    have hpicked := h.picked t hmem
    cases hlabel : t.label with
    | none =>
      rw [hlabel] at hpicked
      simpa [Tracked.carry, hlabel] using hpicked
    | some l =>
      rw [hlabel] at hpicked
      have hmem' : (l, t.vector) ∈ ts.filterMap Tracked.stored? :=
        List.mem_filterMap.2 ⟨t, hmem, by rw [Tracked.stored?, hlabel]; rfl⟩
      rw [h.stored, mem_labelled] at hmem'
      obtain ⟨hl, hlt, -⟩ := hmem'
      have hnew := isSome_newLabel?_remove f selector hl hlt
      have hfree : t.picked = false := by simpa using hpicked
      simp [Tracked.carry, hlabel, hnew, hfree]

/-! ## Runs -/

theorem inStep_empty {d : Nat} {metric : Metric} (h : Flat.empty d metric = .ok f) :
    InStep f [] where
  stored := by
    obtain ⟨storage, hempty, rfl⟩ := map_eq_ok_iff.1 h
    unfold Storage.empty at hempty
    split at hempty
    · cases hempty
      simp [Storage.labelled, Storage.toList, Scan.rows]
    · cases hempty
  picked := by simp

theorem Tracks.inStep (h : Tracks f ts) : InStep f ts := by
  induction h with
  | empty hempty => exact inStep_empty hempty
  | add x _ hok ih => exact ih.add hok
  | @addFails f ts x e _ herror ih =>
    have hkept : (Index.add f x).state = f := Outcome.atomic_replace f (f.add x) e herror
    rwa [hkept]
  | remove selector _ ih => exact ih.remove selector

theorem Tracked.stored?_eq_some_iff {t : Tracked} {l : Label} {v : Floats} :
    t.stored? = some (l, v) ↔ t.label = some l ∧ t.vector = v := by
  simp [stored?]

theorem InStep.row (h : InStep f ts) {t : Tracked} (ht : t ∈ ts) {l : Label}
    (hl : t.label = some l) :
    0 ≤ l ∧ l < f.count ∧ rowOf f.dimension f.vectors l.toNat = t.vector := by
  rw [← mem_labelled, ← h.stored]
  exact List.mem_filterMap.2 ⟨t, ht, Tracked.stored?_eq_some_iff.2 ⟨hl, rfl⟩⟩

/-- The labels of what is left are `0, 1, …` in the order of addition. -/
theorem InStep.labels (h : InStep f ts) :
    ts.filterMap Tracked.label = (List.range f.count).map Nat.cast := by
  have hfst : ts.filterMap Tracked.label = (ts.filterMap Tracked.stored?).map Prod.fst := by
    rw [List.map_filterMap]
    refine List.filterMap_congr fun t _ => ?_
    simp [Tracked.stored?, Function.comp_def]
  rw [hfst, h.stored, Storage.labelled_eq_map, List.map_map]
  rfl

theorem InStep.label_inj (h : InStep f ts) {p q : Nat} {t u : Tracked} {l : Label}
    (hp : ts[p]? = some t) (hq : ts[q]? = some u) (ht : t.label = some l) (hu : u.label = some l) :
    p = q := by
  have hnodup : (ts.filterMap Tracked.label).Nodup := by
    rw [h.labels]
    exact List.nodup_range.map fun _ _ hij => Int.ofNat_inj.1 hij
  have hapart := List.pairwise_iff_getElem.1 (List.pairwise_filterMap.1 hnodup)
  obtain ⟨hlt, rfl⟩ := List.getElem?_eq_some_iff.1 hp
  obtain ⟨hlt', rfl⟩ := List.getElem?_eq_some_iff.1 hq
  rcases Nat.lt_trichotomy p q with hpq | heq | hqp
  · exact absurd rfl (hapart p q hlt hlt' hpq l ht l hu)
  · exact heq
  · exact absurd rfl (hapart q p hlt' hlt hqp l hu l ht)

theorem InStep.exists_label (h : InStep f ts) {l : Nat} (hl : l < f.count) :
    ∃ (p : Nat) (t : Tracked), ts[p]? = some t ∧ t.label = some (l : Int) := by
  have hmem : (l : Int) ∈ ts.filterMap Tracked.label := by
    rw [h.labels]
    exact List.mem_map_of_mem (List.mem_range.2 hl)
  obtain ⟨t, ht, hlabel⟩ := List.mem_filterMap.1 hmem
  obtain ⟨p, hp⟩ := List.mem_iff_getElem?.1 ht
  exact ⟨p, t, hp, hlabel⟩

/-- Whatever additions and removals there are, a vector has no label left just if a selector has
picked it at the label it had then. Otherwise its label is that of a stored row, and the row is the
vector, bit for bit. Two vectors never have the same label, and every row is that of one vector. -/
theorem Tracks.label_of_added (h : Tracks f ts) :
    (∀ t ∈ ts, (t.label.isSome = true ↔ t.picked = false) ∧ ∀ l, t.label = some l →
      0 ≤ l ∧ l < f.count ∧ rowOf f.dimension f.vectors l.toNat = t.vector) ∧
    (∀ (p q : Nat) (t u : Tracked) (l : Label), ts[p]? = some t → ts[q]? = some u →
      t.label = some l → u.label = some l → p = q) ∧
    ∀ l : Nat, l < f.count →
      ∃! p : Nat, ∃ t : Tracked, ts[p]? = some t ∧ t.label = some (l : Int) := by
  have hstep := h.inStep
  refine ⟨fun t ht => ⟨?_, fun l hl => hstep.row ht hl⟩,
    fun p q t u l hp hq ht hu => hstep.label_inj hp hq ht hu, fun l hl => ?_⟩
  · rw [hstep.picked t ht]
    cases t.picked <;> simp
  · obtain ⟨p, t, hp, ht⟩ := hstep.exists_label hl
    refine ⟨p, ⟨t, hp, ht⟩, fun q hq => ?_⟩
    obtain ⟨u, hu, hlabel⟩ := hq
    exact hstep.label_inj hu hp hlabel ht

/-- A label is given to another vector after a removal, and a batch with a part of a row is
refused. -/
theorem label_of_added_reused :
    let f : Flat := ⟨⟨2, #[.one, .one, .zero, .zero], by decide, by decide⟩, .l2⟩
    let ts : List Tracked := [⟨#[.one, .zero], none, true⟩, ⟨#[.zero, .one], none, true⟩,
      ⟨#[.one, .one], some 0, false⟩, ⟨#[.zero, .zero], some 1, false⟩]
    Tracks f ts ∧
      ∃! p : Nat, ∃ t : Tracked, ts[p]? = some t ∧ t.label = some ((1 : Nat) : Int) := by
  intro f ts
  have hempty : Flat.empty 2 .l2 = .ok ⟨⟨2, #[], by decide, by decide⟩, .l2⟩ := rfl
  have hfirst := Tracks.add #[.one, .zero, .zero, .one, .one, .one] (.empty hempty) (by decide)
  have hrefused := Tracks.addFails (x := #[.one]) hfirst (e := .dimensionMismatch 2 1) (by decide)
  have hsecond := Tracks.add #[.zero, .zero] (.remove (.range 1 2) hrefused) (by decide)
  have htracks : Tracks f ts := Tracks.remove (.range 0 1) hsecond
  exact ⟨htracks, htracks.label_of_added.2.2 1 (by decide)⟩

end Neighbors.Flat
