import Mathlib.Data.Nat.Log
import Neighbors.Proofs.SortedAxis.Coverage

/-!
# The place of a query among sorted values

The bisection halves the bracket, so that it ends after few rounds whatever the values are
(`Frontier.bracketWithin?_eq`). Among values in ascending order it ends where the values up to the
query do, equal ones included (`Frontier.locate_eq_behind`), so that their number alone tells the
place of the query (`SortedAxis.locate_by_count`). The order is meant of the numbers: zeros of both
signs may be mixed.
-/

namespace Neighbors

namespace Frontier

variable {value : Nat → Binary32} {q : Binary32} {n m : Nat}

/-! ## The bisection ends -/

/-- The bracket that the bisection ends with; nothing if `rounds` are too few. -/
def bracketWithin? (value : Nat → Binary32) (q : Binary32) :
    (rounds : Nat) → (lo hi : Nat) → Option (Nat × Nat)
  | 0, lo, hi => if lo + 1 < hi then none else some (lo, hi)
  | rounds + 1, lo, hi =>
    if lo + 1 < hi then
      let mid := (lo + hi) / 2
      if (value mid).le q then bracketWithin? value q rounds mid hi
      else bracketWithin? value q rounds lo mid
    else some (lo, hi)

/-- The place of `q` in `n` sorted values; nothing if the bisection takes more than `rounds`. -/
def locateWithin? (value : Nat → Binary32) (q : Binary32) (rounds n : Nat) : Option Frontier :=
  if n = 0 then some exhausted
  else if q.lt (value 0) then some (right 0)
  else if (value (n - 1)).le q then some (left (n - 1))
  else (bracketWithin? value q rounds 0 (n - 1)).map fun (lo, hi) => both lo hi

/-- A round leaves at most half of the bracket, rounded up. -/
theorem clog_half_lt {w w' : Nat} (hw : 1 < w) (h : w' ≤ (w + 1) / 2) :
    Nat.clog 2 w' < Nat.clog 2 w := by
  have hrec : Nat.clog 2 w = Nat.clog 2 ((w + 1) / 2) + 1 := Nat.clog_of_two_le Nat.one_lt_two hw
  rw [hrec]
  exact Nat.lt_succ_of_le (Nat.clog_mono_right 2 h)

theorem bracketWithin?_eq (value : Nat → Binary32) (q : Binary32) {rounds lo hi : Nat}
    (h : Nat.clog 2 (hi - lo) ≤ rounds) :
    bracketWithin? value q rounds lo hi = some (bracket value q lo hi) := by
  induction rounds generalizing lo hi with
  | zero =>
    have hgap : ¬lo + 1 < hi := fun hgap => by
      have hpos : 0 < Nat.clog 2 (hi - lo) := Nat.clog_pos Nat.one_lt_two (by omega)
      omega
    rw [bracketWithin?, bracket, if_neg hgap, if_neg hgap]
  | succ rounds ih =>
    rw [bracketWithin?, bracket]
    split
    · next hgap =>
      have hhalf : ∀ w ≤ (hi - lo + 1) / 2, Nat.clog 2 w ≤ rounds := fun w hw => by
        have hlt := clog_half_lt (w := hi - lo) (by omega) hw
        omega
      simp only
      split
      · exact ih (hhalf _ (by omega))
      · exact ih (hhalf _ (by omega))
    · rfl

theorem locateWithin?_eq (value : Nat → Binary32) (q : Binary32) {rounds n : Nat}
    (h : Nat.clog 2 (n - 1) ≤ rounds) :
    locateWithin? value q rounds n = some (locate value q n) := by
  have hbracket : bracketWithin? value q rounds 0 (n - 1) = some (bracket value q 0 (n - 1)) :=
    bracketWithin?_eq value q h
  unfold locateWithin? locate
  split
  · rfl
  split
  · rfl
  split
  · rfl
  · rw [hbracket]
    rfl

/-! ## Where it ends -/

/-- The values of the positions before `m` are those up to `q`. -/
def Splits (value : Nat → Binary32) (q : Binary32) (n m : Nat) : Prop :=
  ∀ i < n, (value i).le q = true ↔ i < m

theorem bracket_splits (hs : Splits value q n m) {lo hi : Nat} (hlo : lo < m) (hm : m ≤ hi)
    (hhi : hi < n) : (bracket value q lo hi).1 < m ∧ m ≤ (bracket value q lo hi).2 := by
  induction lo, hi using bracket.induct value q with
  | case1 lo hi hgap mid hle ih =>
    have hmid : mid < n := by omega
    rw [bracket, if_pos hgap, if_pos hle]
    exact ih ((hs mid hmid).1 hle) hm hhi
  | case2 lo hi hgap mid hle ih =>
    have hmid : mid < n := by omega
    rw [bracket, if_pos hgap, if_neg hle]
    exact ih hlo (Nat.not_lt.1 fun h => hle ((hs mid hmid).2 h)) hmid
  | case3 lo hi hgap =>
    rw [bracket, if_neg hgap]
    exact ⟨hlo, hm⟩

theorem exists_splits (hn : ∀ i < n, ¬(value i).isNaN = true)
    (hsort : ∀ i j, i ≤ j → j < n → (value i).key ≤ (value j).key) (hq : ¬q.isNaN = true) :
    ∃ m ≤ n, Splits value q n m := by
  induction n with
  | zero => exact ⟨0, Nat.le_refl 0, fun i hi => absurd hi (Nat.not_lt_zero i)⟩
  | succ n ih =>
    by_cases hle : (value n).le q = true
    · refine ⟨n + 1, Nat.le_refl _, fun i hi => iff_of_true ?_ hi⟩
      rw [Binary32.le_iff (hn n (by omega)) hq] at hle
      rw [Binary32.le_iff (hn i hi) hq]
      exact Int.le_trans (hsort i n (by omega) (by omega)) hle
    · obtain ⟨m, hmn, hm⟩ :=
        ih (fun i hi => hn i (by omega)) (fun i j hij hj => hsort i j hij (by omega))
      refine ⟨m, by omega, fun i hi => ?_⟩
      rcases Nat.lt_succ_iff_lt_or_eq.1 hi with hi | rfl
      · exact hm i hi
      · exact iff_of_false hle (by omega)

/-- The place behind the first `m` of `n` values. -/
def behind (n m : Nat) : Frontier :=
  if m = 0 then right 0 else if m = n then left (n - 1) else both (m - 1) m

/-- The values to the left are up to `q`, those to the right are greater. -/
def Brackets (value : Nat → Binary32) (q : Binary32) : Frontier → Prop
  | both l r => (value l).le q = true ∧ q.lt (value r) = true
  | left i => (value i).le q = true
  | right i => q.lt (value i) = true
  | exhausted => True

theorem locate_eq_behind (hs : Splits value q n m) (hm : m ≤ n) (hpos : 0 < n)
    (hn : ∀ i < n, ¬(value i).isNaN = true) (hq : ¬q.isNaN = true) :
    locate value q n = behind n m := by
  have hfirst : q.lt (value 0) = true ↔ m = 0 := by
    rw [Binary32.lt_iff hq (hn 0 hpos), ← Int.not_le, ← Binary32.le_iff (hn 0 hpos) hq,
      hs 0 hpos]
    omega
  have hlast : (value (n - 1)).le q = true ↔ m = n := by
    rw [hs (n - 1) (by omega)]
    omega
  unfold locate behind
  rw [if_neg (Nat.ne_of_gt hpos)]
  simp only [hfirst, hlast]
  split
  · rfl
  · next hzero =>
    split
    · rfl
    · next hall =>
      have hgap : 0 < n - 1 := by omega
      obtain ⟨hlo, hhi⟩ := bracket_splits hs (Nat.pos_of_ne_zero hzero) (by omega)
        (Nat.sub_lt hpos Nat.one_pos)
      obtain ⟨hnext, -⟩ := bracket_neighbours value q hgap
      have hleft : (bracket value q 0 (n - 1)).1 = m - 1 := by omega
      have hright : (bracket value q 0 (n - 1)).2 = m := by omega
      rw [← hleft, ← hright]

theorem brackets_behind (hs : Splits value q n m) (hm : m ≤ n) (hpos : 0 < n)
    (hn : ∀ i < n, ¬(value i).isNaN = true) (hq : ¬q.isNaN = true) :
    (behind n m).Brackets value q := by
  have hgreater : ∀ i < n, m ≤ i → q.lt (value i) = true := by
    intro i hi hmi
    rw [Binary32.lt_iff hq (hn i hi), ← Int.not_le, ← Binary32.le_iff (hn i hi) hq, hs i hi]
    omega
  unfold behind
  split
  · exact hgreater 0 hpos (by omega)
  · split
    · exact (hs (n - 1) (by omega)).2 (by omega)
    · exact ⟨(hs (m - 1) (by omega)).2 (by omega), hgreater m (by omega) (Nat.le_refl m)⟩

/-- There are as many values up to `q` as there are in front of the split. -/
theorem Splits.countP_range (hs : Splits value q n m) (hm : m ≤ n) :
    (List.range n).countP (fun i => (value i).le q) = m := by
  have hfront : (List.range' 0 m).countP (fun i => (value i).le q) = m := by
    rw [List.countP_eq_length.2, List.length_range']
    intro i hi
    have him := (List.mem_range'_1.1 hi).2
    exact (hs i (by omega)).2 (by omega)
  have hback : (List.range' (0 + m) (n - m)).countP (fun i => (value i).le q) = 0 := by
    refine List.countP_eq_zero.2 fun i hi => ?_
    obtain ⟨hmi, hin⟩ := List.mem_range'_1.1 hi
    exact (hs i (by omega)).not.2 (by omega)
  have hall := List.range'_append_1 (s := 0) (m := m) (n := n - m)
  rw [Nat.add_sub_cancel' hm] at hall
  rw [List.range_eq_range', ← hall, List.countP_append, hfront, hback, Nat.add_zero]

end Frontier

structure Ascends (values : Floats) (order : Array Nat) : Prop where
  perm : order.toList.Perm (List.range values.size)
  ascending : order.toList.Pairwise fun i j =>
    (values.getD i .zero).key ≤ (values.getD j .zero).key

theorem Argsort.ascends {values : Floats} {order : Array Nat}
    (h : Argsort values values.size order) : Ascends values order :=
  ⟨h.perm, h.ascending.imp Binary32.key_le_of_totalKey_le⟩

theorem map_getD_range (values : Floats) :
    (List.range values.size).map (values.getD · .zero) = values.toList := by
  refine List.ext_getElem (by simp) fun i hi hi' => ?_
  simp [Array.getD, show i < values.size by simpa using hi']

namespace SortedAxis

variable {s : SortedAxis} {q : Binary32}

def ordered (s : SortedAxis) : List Binary32 := (List.range s.order.size).map s.valueAt

theorem ordered_eq (s : SortedAxis) :
    s.ordered = s.order.toList.map (s.values.getD · .zero) := by
  rw [← map_labelAt_range, List.map_map]
  rfl

theorem valueAt_key_le (h : Ascends s.values s.order) {i j : Nat} (hij : i ≤ j)
    (hj : j < s.order.size) : (s.valueAt i).key ≤ (s.valueAt j).key := by
  rcases Nat.eq_or_lt_of_le hij with rfl | hlt
  · exact Int.le_refl _
  · have hsort := List.pairwise_iff_getElem.1 h.ascending i j (by simpa using by omega)
      (by simpa using hj) hlt
    rwa [Array.getElem_toList, Array.getElem_toList, ← labelAt_eq, ← labelAt_eq] at hsort

theorem valueAt_mem_ordered {i : Nat} (hi : i < s.order.size) : s.valueAt i ∈ s.ordered :=
  List.mem_map_of_mem (List.mem_range.2 hi)

theorem ordered_perm (h : Ascends s.values s.order) : s.ordered.Perm s.values.toList := by
  rw [ordered_eq, ← map_getD_range]
  exact h.perm.map _

theorem size_order (h : Ascends s.values s.order) : s.order.size = s.count := by
  show s.order.size = s.values.size
  simpa using h.perm.length_eq

theorem isNumber_valueAt (h : Ascends s.values s.order) (hnum : ∀ v ∈ s.values, ¬v.isNaN = true) :
    ∀ i < s.order.size, ¬(s.valueAt i).isNaN = true := by
  intro i hi
  have hmem : s.valueAt i ∈ s.values.toList := (ordered_perm h).mem_iff.1 (valueAt_mem_ordered hi)
  exact hnum _ (Array.mem_toList_iff.1 hmem)

/-- The order is ascending in every state that a search answers from. -/
theorem Reachable.ascends (hs : Reachable s) (hc : s.isCurrent = true) :
    Ascends s.values s.order :=
  (hs.ordered.argsort_of_isCurrent hc).ascends

/-- A number splits values in ascending order behind as many as are not greater. -/
theorem splits_count (h : Ascends s.values s.order) (hnum : ∀ v ∈ s.values, ¬v.isNaN = true)
    (hq : ¬q.isNaN = true) :
    Frontier.Splits s.valueAt q s.order.size (s.values.countP (·.le q)) := by
  have hn := isNumber_valueAt h hnum
  obtain ⟨m, hm, hs⟩ := Frontier.exists_splits hn (fun i j hij hj => valueAt_key_le h hij hj) hq
  have hcount : s.values.countP (·.le q) = m := by
    rw [← Array.countP_toList, ← (ordered_perm h).countP_eq, ordered, List.countP_map]
    exact hs.countP_range hm
  rwa [hcount]

/-- Among numbers in ascending order a number is placed by how many are not greater: in front of all
values, behind all, or between the last one that is not greater and the first one that is. The
bisection ends after as many rounds as it takes to halve `count - 1` down to one, or fewer. -/
theorem locate_by_count (hpos : 0 < s.count) (h : Ascends s.values s.order)
    (hnum : ∀ v ∈ s.values, ¬v.isNaN = true) (hq : ¬q.isNaN = true) :
    let c := s.values.countP (·.le q)
    let place := Frontier.locate s.valueAt q s.order.size
    place = (if c = 0 then .right 0 else if c = s.count then .left (s.count - 1)
      else .both (c - 1) c) ∧
    place.Brackets s.valueAt q ∧
    ∀ rounds, Nat.clog 2 (s.count - 1) ≤ rounds →
      Frontier.locateWithin? s.valueAt q rounds s.order.size = some place := by
  intro c place
  have hsize : s.order.size = s.count := size_order h
  have hs := splits_count h hnum hq
  have hn := isNumber_valueAt h hnum
  have hc : c ≤ s.order.size := by
    rw [hsize]
    exact Array.countP_le_size
  have hplace : place = .behind s.order.size c := Frontier.locate_eq_behind hs hc (by omega) hn hq
  refine ⟨?_, ?_, fun rounds hrounds => ?_⟩
  · rw [hplace, hsize]
    rfl
  · rw [hplace]
    exact Frontier.brackets_behind hs hc (by omega) hn hq
  · rw [← hsize] at hrounds
    exact Frontier.locateWithin?_eq s.valueAt q hrounds

/-- The query is equal to three of the values, two of which come behind it by their bits. -/
theorem locate_by_count_zeros :
    let s := (Index.add (empty {}) #[.zero, .one, .negZero, .zero]).state
    0 < s.count ∧ Ascends s.values s.order ∧ (∀ v ∈ s.values, ¬v.isNaN = true) ∧
      s.values.countP (·.le .negZero) = 3 ∧
      Frontier.locate s.valueAt .negZero s.order.size = .both 2 3 ∧
      (s.valueAt 2).le .negZero = true ∧ Binary32.negZero.lt (s.valueAt 3) = true ∧
      Frontier.locateWithin? s.valueAt .negZero 2 s.order.size = some (.both 2 3) := by
  intro s
  have hs : Reachable s := .add _ (.empty _)
  have hnum : ∀ v ∈ s.values, ¬v.isNaN = true := by decide
  have hsort : Ascends s.values s.order :=
    hs.ascends ((isCurrent_iff s).2 (hs.ordered.continuous rfl))
  have hpos : 0 < s.count := by decide
  have hc : s.values.countP (·.le .negZero) = 3 := by decide
  obtain ⟨hplace, hbracket, hrounds⟩ :=
    locate_by_count hpos hsort hnum (q := .negZero) (by decide)
  have hboth : Frontier.locate s.valueAt .negZero s.order.size = .both 2 3 := by
    rw [hplace, hc]
    rfl
  rw [hboth] at hbracket
  refine ⟨hpos, hsort, hnum, hc, hboth, hbracket.1, hbracket.2, ?_⟩
  rw [← hboth]
  exact hrounds 2 (by decide)

end SortedAxis

end Neighbors
