import Neighbors.Index.SortedAxis
import Neighbors.Proofs.Binary32.Order
import Mathlib.Data.List.Perm.Basic
import Mathlib.Data.List.Range

/-!
# The walk away from the query

`Frontier.remaining` lists the positions that a frontier can still give. A step takes one of them
away and leaves the others (`next?_perm`), so a walk gives what was there at its start, each
position once, as long as there is one (`walk_spec`). Nothing is assumed of the comparisons. The
start has every position (`remaining_locate`), except that a single value which no comparison with
the query decides is there twice (`remaining_locate_one`).
-/

namespace Neighbors.Frontier

variable {value : Nat → Binary32} {q : Binary32} {n : Nat}

def remaining (n : Nat) : Frontier → List Nat
  | both l r => List.range (l + 1) ++ List.range' r (n - r)
  | left i => List.range (i + 1)
  | right i => List.range' i (n - i)
  | exhausted => []

def Inside (n : Nat) : Frontier → Prop
  | both l r => l < n ∧ r < n
  | left i => i < n
  | right i => i < n
  | exhausted => True

/-! ## Steps -/

theorem range'_eq_cons {i : Nat} (h : i < n) :
    List.range' i (n - i) = i :: List.range' (i + 1) (n - (i + 1)) := by
  rw [show n - i = n - (i + 1) + 1 by omega, List.range'_succ]

theorem remaining_eq_nil {f : Frontier} (hf : f.Inside n) (h : f.next? value q n = none) :
    f = exhausted := by
  cases f with
  | both l r =>
    simp only [next?] at h
    split at h <;> cases h
  | left i => cases h
  | right i => cases h
  | exhausted => rfl

/-- A step takes one position away. -/
theorem next?_perm {f rest : Frontier} {i : Nat} (hf : f.Inside n)
    (h : f.next? value q n = some (i, rest)) :
    rest.Inside n ∧ (f.remaining n).Perm (i :: rest.remaining n) := by
  cases f with
  | both l r =>
    obtain ⟨hl, hr⟩ := hf
    simp only [next?] at h
    split at h
    · cases h
      cases i with
      | zero => exact ⟨hr, .refl _⟩
      | succ l =>
        refine ⟨⟨Nat.lt_of_succ_lt hl, hr⟩, ?_⟩
        simp only [remaining, List.range_succ (n := l + 1), List.append_assoc]
        exact List.perm_middle
    · cases h
      simp only [remaining, range'_eq_cons hr]
      split
      · next hend =>
        refine ⟨hl, ?_⟩
        rw [hend, Nat.sub_self]
        exact List.perm_middle.trans (by simp)
      · next hend => exact ⟨⟨hl, by omega⟩, List.perm_middle⟩
  | left i =>
    cases h
    cases i with
    | zero => exact ⟨trivial, .refl _⟩
    | succ i =>
      refine ⟨Nat.lt_of_succ_lt hf, ?_⟩
      simp only [remaining, List.range_succ (n := i + 1)]
      exact List.perm_append_singleton _ _
  | right i =>
    cases h
    have hi : i < n := hf
    simp only [remaining, range'_eq_cons hi]
    split
    · next hend => exact ⟨trivial, by simp [hend]⟩
    · next hend => exact ⟨by show i + 1 < n; omega, .refl _⟩
  | exhausted => cases h

/-! ## Walks -/

def given (value : Nat → Binary32) (q : Binary32) (n : Nat) : Nat → Frontier → List Nat
  | 0, _ => []
  | k + 1, f =>
    match f.next? value q n with
    | some (i, rest) => i :: given value q n k rest
    | none => []

def afterWalk (value : Nat → Binary32) (q : Binary32) (n : Nat) : Nat → Frontier → Frontier
  | 0, f => f
  | k + 1, f =>
    match f.next? value q n with
    | some (_, rest) => afterWalk value q n k rest
    | none => exhausted

theorem length_given_le (k : Nat) (f : Frontier) : (given value q n k f).length ≤ k := by
  induction k generalizing f with
  | zero => exact Nat.le_refl _
  | succ k ih =>
    simp only [given]
    split
    · exact Nat.succ_le_succ (ih _)
    · exact Nat.zero_le _

theorem walk_exhausted (k : Nat) : walk value q n k exhausted = List.replicate k none := by
  induction k with
  | zero => rfl
  | succ k ih => rw [walk, List.replicate_succ, ← ih]; rfl

/-- A walk gives positions first and then nothing. -/
theorem walk_eq (k : Nat) (f : Frontier) :
    walk value q n k f = (given value q n k f).map some ++
      List.replicate (k - (given value q n k f).length) none := by
  induction k generalizing f with
  | zero => rfl
  | succ k ih =>
    cases hnext : f.next? value q n with
    | some p =>
      simp only [walk, given, hnext]
      rw [ih]
      simp
    | none =>
      simp only [walk, given, hnext]
      rw [walk_exhausted]
      rfl

/-- What was left at the start is what the walk gives and what is left after it, and nothing is
left if the walk gives less than it could. -/
theorem given_perm (value : Nat → Binary32) (q : Binary32) (k : Nat) {f : Frontier}
    (hf : f.Inside n) :
    (f.remaining n).Perm (given value q n k f ++ (afterWalk value q n k f).remaining n) ∧
      ((given value q n k f).length < k → (afterWalk value q n k f).remaining n = []) := by
  induction k generalizing f with
  | zero => exact ⟨.refl _, fun h => absurd h (Nat.not_lt_zero _)⟩
  | succ k ih =>
    simp only [given, afterWalk]
    split
    · next i rest hnext =>
      obtain ⟨hrest, hperm⟩ := next?_perm hf hnext
      obtain ⟨hwalk, hnil⟩ := ih hrest
      exact ⟨hperm.trans (hwalk.cons i), fun h => hnil (by simpa using h)⟩
    · next hnext =>
      rw [remaining_eq_nil hf hnext]
      exact ⟨.refl _, fun _ => rfl⟩

theorem length_given (value : Nat → Binary32) (q : Binary32) (k : Nat) {f : Frontier}
    (hf : f.Inside n) :
    (given value q n k f).length = min k (f.remaining n).length := by
  obtain ⟨hperm, hnil⟩ := given_perm value q k hf
  have hle : (given value q n k f).length ≤ k := length_given_le k f
  have hlen := hperm.length_eq
  rw [List.length_append] at hlen
  rcases Nat.lt_or_ge (given value q n k f).length k with hlt | hge
  · rw [hnil hlt, List.length_nil] at hlen
    omega
  · omega

theorem given_perm_remaining {k : Nat} {f : Frontier} (hf : f.Inside n)
    (hk : (f.remaining n).length ≤ k) : (given value q n k f).Perm (f.remaining n) := by
  have hperm := (given_perm value q k hf).1
  have hlen := length_given value q k hf
  have hrest : (afterWalk value q n k f).remaining n = [] := by
    have hlen' := hperm.length_eq
    rw [List.length_append, hlen, Nat.min_eq_right hk] at hlen'
    exact List.eq_nil_of_length_eq_zero (by omega)
  rw [hrest, List.append_nil] at hperm
  exact hperm.symm

theorem given_eq_take {k l : Nat} (hkl : k ≤ l) (f : Frontier) :
    given value q n k f = (given value q n l f).take k := by
  induction k generalizing l f with
  | zero => rfl
  | succ k ih =>
    obtain ⟨l, rfl⟩ := Nat.exists_eq_add_of_le' (Nat.one_le_of_lt hkl)
    simp only [given]
    split
    · rw [List.take_succ_cons, ← ih (Nat.le_of_succ_le_succ hkl)]
    · rfl

/-- Every walk gives the beginning of the walk that takes all positions. -/
theorem given_eq_take_all (value : Nat → Binary32) (q : Binary32) {f : Frontier}
    (hf : f.Inside n) (k : Nat) :
    given value q n k f = (given value q n (f.remaining n).length f).take k := by
  rcases Nat.le_total k (f.remaining n).length with hk | hk
  · exact given_eq_take hk f
  · rw [given_eq_take hk f, List.take_take, Nat.min_eq_right hk, List.take_of_length_le]
    exact (length_given value q k hf).trans_le (Nat.min_le_right ..)

/-! ## The start -/

/-- The bracket is narrowed to neighbours, whatever the comparisons say. -/
theorem bracket_neighbours (value : Nat → Binary32) (q : Binary32) {lo hi : Nat} (h : lo < hi) :
    (bracket value q lo hi).2 = (bracket value q lo hi).1 + 1 ∧
      (bracket value q lo hi).2 ≤ hi := by
  induction lo, hi using bracket.induct value q with
  | case1 lo hi hgap mid hle ih =>
    have hmid : mid < hi := by omega
    rw [bracket, if_pos hgap, if_pos hle]
    exact ih hmid
  | case2 lo hi hgap mid hle ih =>
    have hmid : lo < mid ∧ mid ≤ hi := by omega
    rw [bracket, if_pos hgap, if_neg hle]
    obtain ⟨hnext, hmid'⟩ := ih hmid.1
    exact ⟨hnext, Nat.le_trans hmid' hmid.2⟩
  | case3 lo hi hgap =>
    rw [bracket, if_neg hgap]
    exact ⟨by simp only; omega, Nat.le_refl _⟩

/-- No comparison tells on which side of `q` a single value is. -/
def Undecided (value : Nat → Binary32) (q : Binary32) (n : Nat) : Prop :=
  n = 1 ∧ q.lt (value 0) = false ∧ (value 0).le q = false

theorem locate_of_undecided (h : Undecided value q n) : locate value q n = both 0 0 := by
  obtain ⟨rfl, hlt, hle⟩ := h
  simp [locate, hlt, hle, bracket]

/-- The search starts inside, and with every position unless the only one is undecided. -/
theorem locate_spec (value : Nat → Binary32) (q : Binary32) (n : Nat) :
    (locate value q n).Inside n ∧
      (¬Undecided value q n → (locate value q n).remaining n = List.range n) := by
  unfold locate
  split
  · next hn => exact ⟨trivial, fun _ => by rw [hn]; rfl⟩
  · next hn =>
    have hpos : 0 < n := Nat.pos_of_ne_zero hn
    split
    · exact ⟨hpos, fun _ => by simp [remaining, List.range_eq_range']⟩
    · next hlt =>
      split
      · exact ⟨Nat.sub_lt hpos Nat.one_pos, fun _ => by simp [remaining, Nat.sub_add_cancel hpos]⟩
      · next hle =>
        rcases Nat.lt_or_ge 0 (n - 1) with hgap | hone
        · obtain ⟨hnext, hhi⟩ := bracket_neighbours value q hgap
          simp only [Inside, remaining, hnext] at hhi ⊢
          refine ⟨by omega, fun _ => ?_⟩
          have happ := List.range'_append_1 (s := 0) (m := (bracket value q 0 (n - 1)).1 + 1)
            (n := n - ((bracket value q 0 (n - 1)).1 + 1))
          rwa [Nat.zero_add, Nat.add_sub_cancel' (by omega), ← List.range_eq_range',
            ← List.range_eq_range'] at happ
        · have h1 : n = 1 := by omega
          subst h1
          rw [bracket, if_neg (by decide)]
          exact ⟨⟨hpos, hpos⟩, fun h => absurd ⟨rfl, by simpa using hlt, by simpa using hle⟩ h⟩

/-- An undecided value is one that a NaN keeps from being compared. -/
theorem undecided_iff :
    Undecided value q n ↔ n = 1 ∧ (q.isNaN = true ∨ (value 0).isNaN = true) := by
  unfold Undecided
  by_cases hq : q.isNaN = true
  · simp [hq, Binary32.lt_nan_left hq, Binary32.le_nan_right _ hq]
  · by_cases hv : (value 0).isNaN = true
    · simp [hv, Binary32.lt_nan_right _ hv, Binary32.le_nan_left hv]
    · have hle : q.lt (value 0) = false → (value 0).le q = true := by
        intro hlt
        rw [← Bool.not_eq_true, Binary32.lt_iff hq hv] at hlt
        exact (Binary32.le_iff hv hq).2 (Int.not_lt.1 hlt)
      constructor
      · rintro ⟨-, hlt, hle'⟩
        rw [hle hlt] at hle'
        cases hle'
      · rintro ⟨-, hnan⟩
        exact absurd hnan (not_or.2 ⟨hq, hv⟩)

/-! ## The whole walk -/

/-- A walk gives different positions, as many as there are, unless the only one is undecided. -/
theorem given_locate (k : Nat) (h : ¬Undecided value q n) :
    (given value q n k (locate value q n)).Nodup ∧
      (∀ i ∈ given value q n k (locate value q n), i < n) ∧
      (given value q n k (locate value q n)).length = min k n := by
  obtain ⟨hin, hall⟩ := locate_spec value q n
  have hperm := (given_perm value q k hin).1
  have hlen := length_given value q k hin
  rw [hall h] at hperm hlen
  refine ⟨?_, fun i hi => ?_, by rw [hlen, List.length_range]⟩
  · exact (List.nodup_append.1 (hperm.nodup_iff.1 List.nodup_range)).1
  · exact List.mem_range.1 (hperm.mem_iff.2 (List.mem_append_left _ hi))

/-- A walk gives an undecided position twice if it has two steps. -/
theorem given_undecided (k : Nat) (h : Undecided value q n) :
    given value q n k (locate value q n) = List.replicate (min k 2) 0 := by
  rw [locate_of_undecided h]
  obtain ⟨rfl, -, -⟩ := h
  -- The value is given from one side first, and then it is still there on the other one.
  have hboth : ∃ rest, next? value q 1 (both 0 0) = some (0, rest) ∧
      next? value q 1 rest = some (0, exhausted) := by
    simp only [next?]
    split
    · exact ⟨right 0, rfl, rfl⟩
    · exact ⟨left 0, rfl, rfl⟩
  obtain ⟨rest, hfirst, hsecond⟩ := hboth
  match k with
  | 0 => rfl
  | 1 => simp [given, hfirst]
  | k + 2 =>
    have hnil : given value q 1 k exhausted = [] := by cases k <;> rfl
    rw [Nat.min_eq_right (Nat.le_add_left 2 k)]
    simp [given, hfirst, hsecond, hnil, List.replicate]

end Neighbors.Frontier
