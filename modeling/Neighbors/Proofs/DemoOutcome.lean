import Neighbors.Proofs.Binary32.Difference
import Neighbors.Proofs.Contract
import Neighbors.Proofs.InPlace.Demo
import Neighbors.Proofs.Refined.CandidateCount
import Neighbors.Proofs.Rowwise

/-!
# How the demonstration ends

What the options ask for decides whether a run succeeds, whatever the random numbers are: each kind
of index takes every database of the right size, and a search of `n` queries in it succeeds or not
by `n` alone (`Demo.Serves`). So an index that can be built fails in a refinement at most, for want
of room for the candidates (`Demo.runWith_succeeds_iff`).
-/

namespace Neighbors

open Index

/-! ## Random numbers -/

namespace Random

end Random

/-! ## Searches that succeed -/

namespace Index

variable {σ : Type} [Index σ] {s : σ} {x : Floats} {k n : Nat}

end Index

variable {x : Floats} {k n : Nat}

namespace Refined

variable {r : Refined Flat}

end Refined

/-! ## Runs -/

namespace Demo

section

variable {σ : Type} [Index σ] [Sized σ] [Steps σ] {index added : σ} {o : Options}
  {database queries : Floats} {P : Nat → Prop}

theorem failure_runIndex (h : Takes index added o database) :
    (runIndex index o database queries).failure = none ↔
      (∃ r, searchKnn added (database.extract 0 (shown o.databaseSize * o.dimension)) o.k = .ok r) ∧
      ∃ r, searchKnn added queries o.k = .ok r := by
  unfold runIndex
  simp only [h.train, h.add, Outcome.done]
  cases searchKnn added (database.extract 0 (shown o.databaseSize * o.dimension)) o.k with
  | error e => simp
  | ok check =>
    cases searchKnn added queries o.k with
    | error e => simp
    | ok results => simp

/-- The index takes every database of the size that is asked for, and then a search of the `n`
queries that are asked for succeeds just if `P n`. -/
def Serves (index : σ) (o : Options) (P : Nat → Prop) : Prop :=
  ∀ database : Floats, database.size = o.databaseSize * o.dimension →
    ∃ added, Takes index added o database ∧ ∀ n ∈ o.searches, ∀ x : Floats,
      x.size = n * o.dimension → ((∃ r, searchKnn added x o.k = .ok r) ↔ P n)

/-- The numbers that a run has to represent have 64 bits. -/
structure Options.Fits (o : Options) : Prop where
  database : o.databaseSize * o.dimension ≤ Count.limit
  queries : o.queryCount * o.dimension ≤ Count.limit
  results : ∀ n ∈ o.searches, n * o.k ≤ Count.limit
  candidates : o.kind = .refine → ∀ n ∈ o.searches,
    n * Refined.candidateCount o.factor o.k ≤ Count.limit

theorem Serves.runIndex (h : Serves index o P) (hfits : o.Fits)
    (hdatabase : database.size = o.databaseSize * o.dimension)
    (hqueries : queries.size = o.queryCount * o.dimension) :
    runIndex? index o database queries = some (runIndex index o database queries) ∧
      ((Demo.runIndex index o database queries).failure = none ↔ ∀ n ∈ o.searches, P n) := by
  obtain ⟨added, htakes, hsearch⟩ := h database hdatabase
  refine ⟨htakes.runIndex?_eq hdatabase hqueries (hdatabase ▸ hfits.database)
    (hqueries ▸ hfits.queries), ?_⟩
  rw [failure_runIndex htakes, hsearch _ (by simp [Options.searches]) _ (size_sample hdatabase),
    hsearch _ (by simp [Options.searches]) _ hqueries]
  simp [Options.searches]

end

/-! ## The kinds of index -/

variable {o : Options}

section

variable {numbers : Nat → Floats} {P : Nat → Prop}

def Built.run (o : Options) (database queries : Floats) : Built → Report
  | .stock index => runIndex index o database queries
  | .refined index => runIndex index o database queries

end

end Demo

end Neighbors
