import Neighbors.Proofs.Binary32.Whole
import Neighbors.Proofs.Refined.Search

/-!
# How many candidates a refined search asks for

The count goes through single precision: the request is rounded, and so is its product with the
factor, whose whole part is held to 64 bits. Each step keeps the order, so the count grows with the
request and with the factor (`Refined.candidateCount_grows`). The request itself is a lower bound
that rounding cannot take away. Where nothing is rounded the count is the product.
-/

namespace Neighbors

open Binary32 (exactLimit)

variable {factor factor' : Binary32} {k k' m : Nat}

theorem RefineSettings.validate_eq_ok_iff :
    validate ⟨factor⟩ = .ok () ↔ factor.isFinite = true ∧ Binary32.one.le factor = true := by
  unfold validate
  cases hfinite : factor.isFinite with
  | false => simp
  | true =>
    have hnan := Binary32.not_isNaN_of_isFinite hfinite
    have hone : ¬Binary32.one.isNaN = true := by decide
    have hle : Binary32.one.le factor = true ↔ ¬factor.lt .one = true := by
      rw [Binary32.le_iff hone hnan, Binary32.lt_iff hnan hone, Int.not_lt]
    simp [hle]

/-- What the proofs use of an accepted factor. -/
structure RefineSettings.Accepts (factor : Binary32) : Prop where
  isFinite : factor.isFinite = true
  isNonneg : factor.IsNonneg
  one_key_le : Binary32.one.key ≤ factor.key

theorem RefineSettings.accepts_of_validate (h : validate ⟨factor⟩ = .ok ()) : Accepts factor := by
  obtain ⟨hfin, hle⟩ := validate_eq_ok_iff.1 h
  have hnan := Binary32.not_isNaN_of_isFinite hfin
  have hkey := (Binary32.le_iff (by decide) hnan).1 hle
  refine ⟨hfin, ⟨by simpa using hnan, ?_⟩, hkey⟩
  -- A number with a sign has no key above zero.
  by_contra hneg
  have hsign : factor.key = -factor.magnitude := by simp [Binary32.key, Binary32.signed, hneg]
  have hone : Binary32.one.key = 0x3f800000 := by decide
  omega

namespace Refined

theorem isNonneg_product (hf : RefineSettings.Accepts factor) (hk : k ≤ Count.limit) :
    (Binary32.ofNat k * factor).IsNonneg :=
  (Binary32.isNonneg_ofNat k).mul hf.isNonneg (Binary32.isFinite_ofNat hk) hf.isFinite

theorem product_key_le (hf : RefineSettings.Accepts factor) (hf' : RefineSettings.Accepts factor')
    (hfactor : factor.key ≤ factor'.key) (hk : k ≤ k') (hlimit : k' ≤ Count.limit) :
    (Binary32.ofNat k * factor).key ≤ (Binary32.ofNat k' * factor').key :=
  Binary32.mul_key_le (Binary32.isNonneg_ofNat k) hf.isNonneg (Binary32.isNonneg_ofNat k')
    hf'.isNonneg (Binary32.isFinite_ofNat hlimit) hf'.isFinite (Binary32.ofNat_key_le hk) hfactor

theorem candidateCount_le_limit (factor : Binary32) (hk : k ≤ Count.limit) :
    candidateCount factor k ≤ Count.limit :=
  Nat.max_le.2 ⟨Binary32.toCount_le _ _, hk⟩

/-- The candidates for one query have a number of 64 bits. -/
theorem FitsCandidates.of_one {β : Type} {r : Refined β} {x : Floats}
    (hx : x.size / r.exact.dimension = 1) (hk : k ≤ Count.limit) : r.FitsCandidates x k := by
  rw [FitsCandidates, hx, Nat.one_mul]
  exact candidateCount_le_limit r.factor hk

theorem candidateCount_mono (hf : RefineSettings.Accepts factor)
    (hf' : RefineSettings.Accepts factor') (hfactor : factor.key ≤ factor'.key) (hk : k ≤ k')
    (hlimit : k' ≤ Count.limit) : candidateCount factor k ≤ candidateCount factor' k' := by
  have hcount := Binary32.toCount_mono (isNonneg_product hf (Nat.le_trans hk hlimit))
    (isNonneg_product hf' hlimit) (product_key_le hf hf' hfactor hk hlimit) Count.limit
  unfold candidateCount
  omega

/-- A whole factor multiplies the request, as long as single precision has the product. -/
theorem candidateCount_ofNat (hm : 0 < m) (hm' : m ≤ exactLimit) (h : k * m ≤ exactLimit) :
    candidateCount (.ofNat m) k = k * m := by
  have hk : k ≤ k * m := Nat.le_mul_of_pos_right k hm
  have hlimit : exactLimit ≤ Count.limit := by decide
  rw [candidateCount, Binary32.ofNat_mul_ofNat (Nat.le_trans hk h) hm', Binary32.toCount_ofNat h]
  omega

example : candidateCount (.ofNat 4) 10 = 40 := by decide +kernel

/-- The count is at least the request and fits 64 bits. It falls neither when the request grows nor
when the factor does. A whole factor multiplies the request where nothing is rounded. -/
theorem candidateCount_grows (hf : RefineSettings.validate ⟨factor⟩ = .ok ())
    (hf' : RefineSettings.validate ⟨factor'⟩ = .ok ()) (hfactor : factor.le factor' = true)
    (hk : k ≤ k') (hlimit : k' ≤ Count.limit) :
    k ≤ candidateCount factor k ∧
    candidateCount factor k ≤ candidateCount factor' k' ∧
    candidateCount factor' k' ≤ Count.limit ∧
    ∀ m ≤ exactLimit, factor = .ofNat m → k * m ≤ exactLimit → candidateCount factor k = k * m := by
  have ha := RefineSettings.accepts_of_validate hf
  have ha' := RefineSettings.accepts_of_validate hf'
  have hkey := (Binary32.le_iff ha.isNonneg.not_isNaN ha'.isNonneg.not_isNaN).1 hfactor
  refine ⟨le_candidateCount factor k, candidateCount_mono ha ha' hkey hk hlimit,
    candidateCount_le_limit factor' hlimit, fun m hm hm' hexact => ?_⟩
  subst hm'
  have hpos : m ≠ 0 := by
    rintro rfl
    exact absurd ha.one_key_le (by decide +kernel)
  exact candidateCount_ofNat (Nat.pos_of_ne_zero hpos) hm hexact

/-- A request that is rounded down, and one that the factor takes past all numbers. -/
theorem candidateCount_grows_rounded :
    let greatest : Binary32 := ⟨false, 0x7f7fffff, by decide⟩
    RefineSettings.validate ⟨.one⟩ = .ok () ∧ RefineSettings.validate ⟨greatest⟩ = .ok () ∧
      Binary32.one.le greatest = true ∧
      Binary32.ofNat 16777217 = .ofNat 16777216 ∧
      .ofNat Count.limit * greatest = Binary32.infinity ∧
      16777217 ≤ candidateCount .one 16777217 ∧
      candidateCount .one 16777217 ≤ candidateCount greatest Count.limit ∧
      candidateCount greatest Count.limit ≤ Count.limit := by
  intro greatest
  have hone : RefineSettings.validate ⟨.one⟩ = .ok () := by decide
  have hgreatest : RefineSettings.validate ⟨greatest⟩ = .ok () := by decide
  have hle : Binary32.one.le greatest = true := by decide
  have hk : 16777217 ≤ Count.limit := by decide
  obtain ⟨hleast, hgrows, hlimit, -⟩ :=
    candidateCount_grows hone hgreatest hle hk (Nat.le_refl Count.limit)
  exact ⟨hone, hgreatest, hle, by decide +kernel, by decide +kernel, hleast, hgrows, hlimit⟩

end Refined

end Neighbors
