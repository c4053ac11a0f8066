import Neighbors.Index.Sum
import Neighbors.Proofs.Refined.Search

/-!
# Numbers of slots of 64 bits

A search multiplies the number of queries by the slots for each of them, and a refinement by the
candidates for each of them as well. Nothing checks the products (`Count.mul`). `Index.Sized` says
of an index for which searches they have 64 bits, whatever the depth of the tower: those are the
searches that write a row for every query.
-/

namespace Neighbors

namespace Index

/-- An index together with the searches whose numbers of slots have 64 bits. -/
class Sized (σ : Type) [Index σ] where
  fits : σ → (queries : Floats) → (k : Nat) → Prop :=
    fun s x k => x.size / dimension s * k ≤ Count.limit
  /-- The slots of the caller are among them. -/
  slots_le : ∀ {s x k}, fits s x k → x.size / dimension s * k ≤ Count.limit := by exact fun h => h

variable {σ : Type} [Index σ] [Sized σ] {s : σ} {x : Floats} {k nq : Nat} {out : Slots}

theorem Sized.wellShaped (h : Sized.fits s x k)
    (hshape : checkShape (dimension s) x k out = .ok nq) : WellShaped (dimension s) x k out nq :=
  .of_checkShape hshape (slots_le h)

instance {α β : Type} [Index α] [Index β] [Sized α] [Sized β] : Sized (α ⊕ β) where
  fits := Sum.elim Sized.fits Sized.fits
  slots_le {s x k} h := by
    obtain a | b := s
    · exact Sized.slots_le (s := a) h
    · exact Sized.slots_le (s := b) h

end Index

open Index

instance : Sized Flat where

instance : Sized Shifted where

instance : Sized SortedAxis where

instance : Sized Grid where

theorem Stock.fits_iff (b : Stock) (x : Floats) (k : Nat) :
    Sized.fits b x k ↔ x.size / dimension b * k ≤ Count.limit := by
  obtain f | s | s := b <;> exact .rfl

namespace Refined

variable {β : Type} [Index β] [Sized β]

instance : Sized (Refined β) where
  fits r x k :=
    x.size / r.exact.dimension * k ≤ Count.limit ∧ r.FitsCandidates x k ∧
      Sized.fits r.base x (candidateCount r.factor k)
  slots_le h := h.1

end Refined

instance Tower.instSized {β : Type} [Index β] [Sized β] : (n : Nat) → Sized (Tower β n)
  | 0 => inferInstanceAs (Sized β)
  | n + 1 =>
    have := Tower.instSized (β := β) n
    inferInstanceAs (Sized (Refined (Tower β n)))

end Neighbors
