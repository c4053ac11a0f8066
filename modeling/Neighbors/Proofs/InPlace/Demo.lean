import Neighbors.Demo.Run
import Neighbors.Proofs.InPlace.Shared

/-!
# The demonstration, step by step

`Demo.runWith?` is the run with every product, difference, slice and index checked: `none` where a
number would leave 64 bits or a range its buffer. If the sizes that the options ask for have 64 bits
it takes all of its steps and comes to the run itself (`Demo.Takes.runIndex?_eq`).
-/

namespace Neighbors

open Index

theorem Count.mul?_eq_some {a b : Nat} (h : a * b ≤ limit) : mul? a b = some (a * b) := if_pos h

theorem Count.add?_eq_some {a b : Nat} (h : a + b ≤ limit) : add? a b = some (a + b) := if_pos h

/-! ## Random vectors -/

namespace Random

variable {d n : Nat} {x : Floats}

end Random

/-! ## Rows of results -/

namespace Index

def Results.row? (r : Results) (i : Nat) : Option Slots := do
  let start ← Count.mul? i r.k
  let stop ← Count.mul? (← Count.add? i 1) r.k
  return ⟨← Buffer.slice? r.slots.distances start stop, ← Buffer.slice? r.slots.labels start stop⟩

/-- The slots are rows for so many queries, and their numbers have 64 bits. -/
structure Results.Whole (r : Results) : Prop where
  slots : r.slots.HasSize (r.queryCount * r.k)
  size_le : r.queryCount * r.k ≤ Count.limit
  queryCount_le : r.queryCount ≤ Count.limit

theorem Results.Whole.row?_eq {r : Results} (h : r.Whole) {i : Nat} (hi : i < r.queryCount) :
    r.row? i = some (r.row i) := by
  have hrow : i * r.k ≤ (i + 1) * r.k := Nat.mul_le_mul_right r.k (Nat.le_succ i)
  have hend : (i + 1) * r.k ≤ r.queryCount * r.k := Nat.mul_le_mul_right r.k hi
  have hstart : Count.mul? i r.k = some (i * r.k) :=
    Count.mul?_eq_some ((hrow.trans hend).trans h.size_le)
  have hnext : Count.add? i 1 = some (i + 1) :=
    Count.add?_eq_some ((Nat.succ_le_of_lt hi).trans h.queryCount_le)
  have hstop : Count.mul? (i + 1) r.k = some ((i + 1) * r.k) :=
    Count.mul?_eq_some (hend.trans h.size_le)
  have hdistances := Buffer.slice?_eq_some hrow (hend.trans_eq h.slots.distances.symm)
  have hlabels := Buffer.slice?_eq_some hrow (hend.trans_eq h.slots.labels.symm)
  simp only [Results.row?, Option.bind_eq_bind, hstart, hnext, hstop, Option.bind_some, hdistances,
    hlabels]
  rfl

variable {σ : Type} [Index σ] {s : σ} {x : Floats} {k : Nat}

/-- A search with slots of its own comes back with as many as were asked for. -/
theorem whole_of_searchKnn (hfills : FillsBuffers s)
    (hsize : x.size / dimension s * k ≤ Count.limit)
    (hcount : x.size / dimension s ≤ Count.limit) {r : Results} (h : searchKnn s x k = .ok r) :
    r.queryCount = x.size / dimension s ∧ r.Whole := by
  obtain ⟨nq, hrows, hrest⟩ := bind_eq_ok_iff.1 h
  obtain ⟨-, -, rfl⟩ := rowCount_eq_ok_iff.1 hrows
  obtain ⟨_, hanswer, rfl⟩ := map_eq_ok_iff.1 hrest
  obtain ⟨nq, hshape, hfound⟩ := hfills.search (Outcome.eq_done hanswer)
  rw [eq_div_of_checkShape hshape, Count.mul_eq hsize] at hfound
  rw [Count.mul_eq hsize]
  exact ⟨rfl, hfound, hsize, hcount⟩

end Index

namespace Demo

def resultLines? (line : Slots → String) (r : Index.Results) (first stop : Nat) :
    Option (List String) :=
  (List.range' first (stop - first)).mapM fun i => (r.row? i).map line

theorem resultLines?_eq (line : Slots → String) {r : Index.Results} (h : r.Whole) {first n : Nat}
    (hstop : first + n ≤ r.queryCount) :
    resultLines? line r first (first + n) = some (resultLines line r first n) := by
  rw [resultLines?, resultLines, Nat.add_sub_cancel_left]
  refine mapM_eq_some (by simp) fun i hi => ?_
  have hlt : i < n := by simpa using hi
  have hrow := h.row?_eq (i := first + i) (by omega)
  simp only [List.getElem_range', Nat.one_mul, hrow, List.getElem_map, List.getElem_range]
  rfl

/-! ## The run -/

section

variable {σ : Type} [Index σ] [Sized σ] [Steps σ]

def runIndex? (index : σ) (o : Options) (database queries : Floats) : Option Report :=
  let start := ["is_trained = " ++ toString (Index.isTrained index)]
  let trained := Index.train index database
  match trained.answer with
  | .error e => some ⟨start, some (.index e)⟩
  | .ok () => do
    let added ← Steps.add? trained.state database
    match added.answer with
    | .error e => return ⟨start, some (.index e)⟩
    | .ok () => do
      let start := start ++ ["ntotal = " ++ toString (Index.count added.state)]
      let checked := shown o.databaseSize
      let sample ← Buffer.slice? database 0 (← Count.mul? checked o.dimension)
      match ← searchKnn? added.state sample o.k with
      | .error e => return ⟨start, some (.index e)⟩
      | .ok check => do
        let start := start ++ "I=" :: (← resultLines? labelLine check 0 checked) ++
          "D=" :: (← resultLines? distanceLine check 0 checked)
        match ← searchKnn? added.state queries o.k with
        | .error e => return ⟨start, some (.index e)⟩
        | .ok results => do
          let n := shown o.queryCount
          let first ← resultLines? labelLine results 0 n
          let last ← resultLines? labelLine results (← Count.sub? o.queryCount n) o.queryCount
          return ⟨start ++ "I (5 first results)=" :: first ++ "I (5 last results)=" :: last, none⟩

/-- How many queries each of the two searches has. -/
def Options.searches (o : Options) : List Nat := [shown o.databaseSize, o.queryCount]

/-- The index takes the database, and then searches of the sizes that the options ask for stay in
range. -/
structure Takes (index added : σ) (o : Options) (database : Floats) : Prop where
  train : Index.train index database = .done index
  add : Index.add index database = .done added
  inRange_index : InRange index
  inRange : InRange added
  fills : FillsBuffers added
  dimension : dimension added = o.dimension
  fits : ∀ n ∈ o.searches, ∀ x : Floats, x.size = n * o.dimension → Sized.fits added x o.k

theorem shown_mul_le (n d : Nat) : shown n * d ≤ n * d :=
  Nat.mul_le_mul_right d (Nat.min_le_left ..)

theorem size_sample {n d : Nat} {database : Floats} (h : database.size = n * d) :
    (database.extract 0 (shown n * d)).size = shown n * d := by
  rw [Array.size_extract, h, Nat.min_eq_left (shown_mul_le n d), Nat.sub_zero]

namespace Takes

variable {index added : σ} {o : Options} {database queries : Floats}

theorem dimension_pos (h : Takes index added o database) : 0 < o.dimension :=
  h.dimension ▸ h.fills.dimension_pos

/-- A search stays in range and comes back whole. -/
theorem searchKnn (h : Takes index added o database) {n : Nat} (hn : n ∈ o.searches) {x : Floats}
    (hx : x.size = n * o.dimension) (hlimit : x.size ≤ Count.limit) :
    searchKnn? added x o.k = some (Index.searchKnn added x o.k) ∧
      ∀ r, Index.searchKnn added x o.k = .ok r → r.queryCount = n ∧ r.Whole := by
  have hfits := h.fits n hn x hx
  have hcount : x.size / Index.dimension added = n := by
    rw [h.dimension, hx, Nat.mul_div_cancel n h.dimension_pos]
  have hrows : n ≤ Count.limit := by
    rw [hx] at hlimit
    exact (Nat.le_mul_of_pos_right n h.dimension_pos).trans hlimit
  refine ⟨h.inRange.searchKnn hfits, fun r hr => ?_⟩
  have hwhole := whole_of_searchKnn h.fills (Sized.slots_le hfits) (hcount ▸ hrows) hr
  rwa [hcount] at hwhole

theorem runIndex?_eq (h : Takes index added o database)
    (hdatabase : database.size = o.databaseSize * o.dimension)
    (hqueries : queries.size = o.queryCount * o.dimension) (hdata : database.size ≤ Count.limit)
    (hlimit : queries.size ≤ Count.limit) :
    runIndex? index o database queries = some (runIndex index o database queries) := by
  have hshown : shown o.databaseSize * o.dimension ≤ database.size :=
    hdatabase ▸ shown_mul_le o.databaseSize o.dimension
  have hsample := size_sample hdatabase
  obtain ⟨hcheck?, hcheck⟩ := h.searchKnn (n := shown o.databaseSize) (by simp [Options.searches])
    hsample (hsample.trans_le (hshown.trans hdata))
  obtain ⟨hresults?, hresults⟩ := h.searchKnn (n := o.queryCount) (by simp [Options.searches])
    hqueries hlimit
  unfold runIndex? runIndex
  simp only [h.train, h.add, h.inRange_index.add, Outcome.done, Option.bind_eq_bind,
    Option.bind_some, Count.mul?_eq_some (hshown.trans hdata),
    Buffer.slice?_eq_some (Nat.zero_le _) hshown, hcheck?]
  cases hc : Index.searchKnn added
      (database.extract 0 (shown o.databaseSize * o.dimension)) o.k with
  | error e => rfl
  | ok check =>
    obtain ⟨hn, hwhole⟩ := hcheck check hc
    have hall : 0 + shown o.databaseSize ≤ check.queryCount := by rw [hn, Nat.zero_add]
    have hlines := fun line => resultLines?_eq line hwhole hall
    simp only [Nat.zero_add] at hlines
    simp only [hlines, Option.bind_some, hresults?]
    cases hr : Index.searchKnn added queries o.k with
    | error e => rfl
    | ok results =>
      obtain ⟨hn, hwhole⟩ := hresults results hr
      have hle : shown o.queryCount ≤ o.queryCount := Nat.min_le_left ..
      have hstart : 0 + shown o.queryCount ≤ results.queryCount := by rwa [hn, Nat.zero_add]
      have hend : o.queryCount - shown o.queryCount + shown o.queryCount ≤ results.queryCount := by
        rw [hn, Nat.sub_add_cancel hle]
      have hfirst := resultLines?_eq labelLine hwhole hstart
      have hlast := resultLines?_eq labelLine hwhole hend
      have hskip : Count.sub? o.queryCount (shown o.queryCount) =
          some (o.queryCount - shown o.queryCount) := if_pos hle
      rw [Nat.zero_add] at hfirst
      rw [Nat.sub_add_cancel hle] at hlast
      simp only [hfirst, hskip, hlast, Option.bind_some]
      rfl

end Takes

end

end Demo

end Neighbors
