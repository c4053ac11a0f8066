/-!
# Rounding to a binary floating-point format

The magnitude of a number in a `Format` is a word: exponent field above fraction field, so that
words are ordered as the values they stand for. `Format.units` reads a word as a whole number of
the format's least subnormal, its *unit*. `Format.nearest` goes back from a quotient of units to
the nearest word, a tie going to the even one; `Format.nearestScaled` does so for a small number
times a power of two without writing out the power.
-/

namespace Neighbors

-- Powers are those of the core library, whatever else is imported.
attribute [local instance (high)] instPowNat

/-- The integer nearest to `n / d`, a tie going to the even one. -/
def divHalfEven (n d : Nat) : Nat :=
  let q := n / d
  let r := 2 * (n % d)
  if r < d ∨ (r = d ∧ q % 2 = 0) then q else q + 1

theorem divHalfEven_mul_self (n : Nat) {d : Nat} (h : 0 < d) : divHalfEven (n * d) d = n := by
  simp [divHalfEven, Nat.mul_div_cancel _ h, h]

theorem divHalfEven_mul_mul (n d : Nat) {c : Nat} (h : 0 < c) :
    divHalfEven (n * c) (d * c) = divHalfEven n d := by
  simp only [divHalfEven, Nat.mul_div_mul_right _ _ h, Nat.mul_mod_mul_right, ← Nat.mul_assoc,
    Nat.mul_lt_mul_right h, Nat.mul_left_inj (Nat.ne_of_gt h)]

/-- A binary interchange format, by the widths of its fraction and exponent fields. -/
structure Format where
  fractionBits : Nat
  exponentBits : Nat
  deriving DecidableEq, Repr

namespace Format

@[inline] def binary32 : Format := ⟨23, 8⟩
@[inline] def binary64 : Format := ⟨52, 11⟩

/-- The word of infinity: every exponent bit set. Greater words are not numbers. -/
@[inline] def infinity (f : Format) : Nat := (2 ^ f.exponentBits - 1) * 2 ^ f.fractionBits

@[inline] def oneBits (f : Format) : Nat := 2 ^ (f.exponentBits - 1) - 2 + f.fractionBits

/-- `1` in units. -/
def one (f : Format) : Nat := 2 ^ f.oneBits

/-- The fraction of a word with its leading bit. -/
@[inline] def significand (f : Format) (m : Nat) : Nat :=
  if m < 2 ^ f.fractionBits then m else 2 ^ f.fractionBits + m % 2 ^ f.fractionBits

/-- The power of two that the significand counts, in units. -/
@[inline] def scale (f : Format) (m : Nat) : Nat := m / 2 ^ f.fractionBits - 1

/-- The value of a word in units. At `infinity` it is the first power of two out of range. -/
@[inline] def units (f : Format) (m : Nat) : Nat := f.significand m * 2 ^ f.scale m

/-- The word nearest to `num / den` units. -/
def nearest (f : Format) (num den : Nat) : Nat :=
  let shift := (num / den).log2 - f.fractionBits
  min f.infinity (shift * 2 ^ f.fractionBits + divHalfEven num (den * 2 ^ shift))

@[inline] def nearestScaled (f : Format) (n up down : Nat) : Nat :=
  if n = 0 then 0
  else
    let shift := n.log2 + up - (down + f.fractionBits)
    let q := if down + shift ≤ up then n * 2 ^ (up - (down + shift))
      else divHalfEven n (2 ^ (down + shift - up))
    min f.infinity (shift * 2 ^ f.fractionBits + q)

theorem nearest_le_infinity (f : Format) (num den : Nat) : f.nearest num den ≤ f.infinity :=
  Nat.min_le_left ..

theorem nearest_zero (f : Format) (den : Nat) : f.nearest 0 den = 0 := by
  simp [nearest, divHalfEven, Nat.zero_mod]
  omega

theorem log2_mul_two_pow {n : Nat} (h : n ≠ 0) (k : Nat) : (n * 2 ^ k).log2 = n.log2 + k := by
  have hN : n * 2 ^ k ≠ 0 := Nat.mul_ne_zero h (Nat.ne_of_gt (Nat.two_pow_pos k))
  rw [Nat.log2_eq_iff hN]
  have lo := (Nat.le_log2 h).1 (Nat.le_refl _)
  have hi := (Nat.log2_lt h).1 (Nat.lt_succ_self _)
  constructor
  · rw [Nat.pow_add]
    exact Nat.mul_le_mul_right _ lo
  · rw [Nat.add_right_comm, Nat.pow_add]
    exact Nat.mul_lt_mul_of_pos_right hi (Nat.two_pow_pos k)

theorem log2_scaled {n : Nat} (h : n ≠ 0) (up down : Nat) :
    (n * 2 ^ up / 2 ^ down).log2 = n.log2 + up - down := by
  by_cases hn : 2 ^ down ≤ n * 2 ^ up
  · have hq : n * 2 ^ up / 2 ^ down ≠ 0 := by
      have := Nat.div_pos hn (Nat.two_pow_pos down)
      omega
    have key : ∀ k, k ≤ (n * 2 ^ up / 2 ^ down).log2 ↔ k ≤ n.log2 + up - down := by
      intro k
      rw [Nat.le_log2 hq, Nat.le_div_iff_mul_le (Nat.two_pow_pos down), ← Nat.pow_add]
      have hN : n * 2 ^ up ≠ 0 := by have := Nat.two_pow_pos down; omega
      rw [← Nat.le_log2 hN, log2_mul_two_pow h]
      have hd : down ≤ (n * 2 ^ up).log2 := (Nat.le_log2 hN).2 hn
      rw [log2_mul_two_pow h] at hd
      omega
    exact Nat.le_antisymm ((key _).1 (Nat.le_refl _)) ((key _).2 (Nat.le_refl _))
  · have hN : n * 2 ^ up ≠ 0 := Nat.mul_ne_zero h (Nat.ne_of_gt (Nat.two_pow_pos up))
    have hd : ¬down ≤ (n * 2 ^ up).log2 := fun hd => hn ((Nat.le_log2 hN).1 hd)
    rw [log2_mul_two_pow h] at hd
    rw [Nat.div_eq_of_lt (by omega), Nat.log2_zero]
    omega

theorem nearestScaled_eq (f : Format) (n up down : Nat) :
    f.nearestScaled n up down = f.nearest (n * 2 ^ up) (2 ^ down) := by
  unfold nearestScaled
  split
  · next h => simp [h, nearest_zero]
  · next h =>
    simp only [nearest, log2_scaled h, Nat.sub_sub]
    congr 2
    generalize n.log2 + up - (down + f.fractionBits) = shift
    rw [← Nat.pow_add]
    split
    · next hs =>
      have e : n * 2 ^ up = n * 2 ^ (up - (down + shift)) * 2 ^ (down + shift) := by
        rw [Nat.mul_assoc, ← Nat.pow_add, Nat.sub_add_cancel hs]
      rw [e, divHalfEven_mul_self _ (Nat.two_pow_pos _)]
    · next hs =>
      have e : 2 ^ (down + shift) = 2 ^ (down + shift - up) * 2 ^ up := by
        rw [← Nat.pow_add, Nat.sub_add_cancel (by omega)]
      rw [e, divHalfEven_mul_mul _ _ (Nat.two_pow_pos _)]

theorem nearestScaled_le_infinity (f : Format) (n up down : Nat) :
    f.nearestScaled n up down ≤ f.infinity := by
  rw [nearestScaled_eq]
  exact nearest_le_infinity ..

@[simp] theorem units_zero (f : Format) : f.units 0 = 0 := by
  rw [units, significand, if_pos (Nat.two_pow_pos _), Nat.zero_mul]

end Format

end Neighbors
