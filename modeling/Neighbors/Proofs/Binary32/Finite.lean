import Neighbors.Storage
import Neighbors.Proofs.Binary32.Squares

/-!
# Distances of finite vectors

A difference of finite numbers can be infinite, but never NaN, and neither can its square nor a sum
of such squares: it grows to infinity and stays there. So the squared distance of finite vectors is
a number without a sign (`isNonneg_squaredDistance`), and that of a vector from itself is `+0`, not
the `-0` that the sum starts from (`squaredDistance_self`).
-/

namespace Neighbors

namespace Binary32

variable {x y : Binary32}

structure IsNonneg (x : Binary32) : Prop where
  isNaN : x.isNaN = false
  negative : x.negative = false

theorem isNonneg_zero : zero.IsNonneg := ⟨rfl, rfl⟩

theorem isNonneg_infinity : infinity.IsNonneg := ⟨rfl, rfl⟩

theorem IsNonneg.not_isNaN (hx : x.IsNonneg) : ¬x.isNaN = true := by simp [hx.isNaN]

theorem IsNonneg.isUnsigned (hx : x.IsNonneg) : x.IsUnsigned :=
  .of_not_isNaN hx.negative hx.not_isNaN

theorem IsNonneg.key_nonneg (hx : x.IsNonneg) : 0 ≤ x.key := by
  rw [key_of_not_negative hx.negative]
  exact Int.natCast_nonneg _

theorem IsNonneg.add (hx : x.IsNonneg) (hy : y.IsNonneg) : (x + y).IsNonneg := by
  refine ⟨?_, (hx.isUnsigned.add hy.isUnsigned).negative⟩
  rcases isFinite_or_isInfinite hx.not_isNaN with hx' | hx'
  · rcases isFinite_or_isInfinite hy.not_isNaN with hy' | hy'
    · simpa using not_isNaN_add hx' hy'
    · rw [add_of_isInfinite_right hx' hy']
      exact hy.isNaN
  · rw [add_of_isInfinite_left hx' hy.not_isNaN fun _ => hy.negative.trans hx.negative.symm]
    exact hx.isNaN

theorem isNonneg_mul_self (hx : ¬x.isNaN = true) : (x * x).IsNonneg :=
  ⟨by simpa using not_isNaN_mul_self hx, mul_self_negative hx⟩

theorem sub_self (hx : x.isFinite = true) : x - x = zero := by
  have hneg : (neg x).isFinite = true := by simpa using hx
  have hsum : x.signedUnits + (neg x).signedUnits = 0 := by
    rw [signedUnits_neg]
    omega
  show x + neg x = zero
  rw [add_eq hx hneg]
  simp only [hsum, if_true, negative_neg, Bool.and_not_self]
  rfl

end Binary32

open Binary32

theorem isNonneg_foldl {a : Binary32} {xs : List Binary32} (ha : a.IsNonneg)
    (hxs : ∀ x ∈ xs, x.IsNonneg) : (xs.foldl (· + ·) a).IsNonneg := by
  induction xs generalizing a with
  | nil => exact ha
  | cons x xs ih =>
    exact ih (ha.add (hxs x List.mem_cons_self)) fun y hy => hxs y (List.mem_cons_of_mem _ hy)

/-- The first number takes the place of the `-0` that the sum starts from. -/
theorem isNonneg_sum {xs : List Binary32} (hne : xs ≠ []) (hxs : ∀ x ∈ xs, x.IsNonneg) :
    (sum xs).IsNonneg := by
  obtain ⟨x, xs, rfl⟩ := List.exists_cons_of_ne_nil hne
  have hx := hxs x List.mem_cons_self
  rw [sum, List.foldl_cons, hx.isUnsigned.negZero_add]
  exact isNonneg_foldl hx fun y hy => hxs y (List.mem_cons_of_mem _ hy)

theorem foldl_replicate_zero (n : Nat) : (List.replicate n zero).foldl (· + ·) zero = zero := by
  induction n with
  | zero => rfl
  | succ n ih => exact ih

theorem sum_replicate_zero {n : Nat} (hn : 0 < n) : sum (List.replicate n zero) = zero := by
  obtain ⟨m, rfl⟩ := Nat.exists_eq_succ_of_ne_zero (Nat.ne_of_gt hn)
  rw [sum, List.replicate_succ, List.foldl_cons, isNonneg_zero.isUnsigned.negZero_add]
  exact foldl_replicate_zero m

def Floats.AllFinite (a : Floats) : Prop := ∀ x ∈ a, x.isFinite = true

instance (a : Floats) : Decidable a.AllFinite :=
  inferInstanceAs (Decidable (∀ x ∈ a, x.isFinite = true))

theorem Floats.AllFinite.row {a : Floats} (h : a.AllFinite) (d i : Nat) :
    (rowOf d a i).AllFinite := by
  intro x hx
  rw [rowOf, Array.mem_def, Array.toList_extract, List.extract_eq_take_drop] at hx
  exact h x (Array.mem_toList_iff.1 (List.mem_of_mem_drop (List.mem_of_mem_take hx)))

variable {a b : Floats}

theorem isNonneg_squaredDistance (ha : a.AllFinite) (hb : b.AllFinite) (hna : 0 < a.size)
    (hnb : 0 < b.size) : (squaredDistance a b).IsNonneg := by
  refine isNonneg_sum ?_ fun x hx => ?_
  · rw [← List.length_pos_iff, List.length_zipWith, Array.length_toList, Array.length_toList]
    exact Nat.lt_min.2 ⟨hna, hnb⟩
  · rw [← List.map_uncurry_zip_eq_zipWith] at hx
    obtain ⟨⟨u, v⟩, huv, rfl⟩ := List.mem_map.1 hx
    obtain ⟨hu, hv⟩ := List.of_mem_zip huv
    have hfu := ha u (Array.mem_toList_iff.1 hu)
    have hfv := hb v (Array.mem_toList_iff.1 hv)
    exact isNonneg_mul_self (not_isNaN_sub hfu (not_isNaN_of_isFinite hfv))

theorem squaredDistance_self (ha : a.AllFinite) (hna : 0 < a.size) :
    squaredDistance a a = zero := by
  have hsquare : ∀ x ∈ a.toList, (x - x) * (x - x) = zero := by
    intro x hx
    rw [Binary32.sub_self (ha x (Array.mem_toList_iff.1 hx))]
    rfl
  rw [squaredDistance, List.zipWith_self, List.map_congr_left hsquare, List.map_const']
  exact sum_replicate_zero (by rwa [Array.length_toList])

end Neighbors
