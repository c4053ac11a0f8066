import Neighbors.Proofs.ShiftedSearch
import Neighbors.Proofs.Survivors
import Neighbors.Proofs.Contract

/-!
# Shifts after a removal

The shifts of a shifted index go by position and stay where they are, while a removal moves the
vectors behind it down (`Shifted.Carried`). A search only counts: it succeeds as soon as as many
vectors have been added as removed (`Shifted.count_run`), and then a vector that has moved is scored
with the shift of another (`Shifted.shifts_go_by_position`).
-/

namespace Neighbors.Shifted

open Index

inductive Call where
  | add (x : Floats)
  | remove (selector : Selector)
  | search (x : Floats) (k : Nat) (out : Slots)

def Call.run (s : Shifted) : Call → Shifted
  | add x => (Index.add s x).state
  | remove selector => (Index.removeIds s selector).state
  | search .. => s

/-- The number of vectors that the call adds. A batch with a part of a row is refused. -/
def Call.added (s : Shifted) : Call → Nat
  | add x => if x.size % s.storage.dimension = 0 then x.size / s.storage.dimension else 0
  | remove _ => 0
  | search .. => 0

def Call.removed (s : Shifted) : Call → Nat
  | add _ => 0
  | remove selector => (s.flat.remove selector).2.removed
  | search .. => 0

/-- Where the vector at position `p` is after the call, if it is still there. -/
def Call.position? (s : Shifted) (p : Nat) : Call → Option Nat
  | add _ => some p
  | remove selector => ((s.flat.remove selector).2.newLabel? p).map Int.toNat
  | search .. => some p

def run (s : Shifted) (calls : List Call) : Shifted := calls.foldl Call.run s

/-- The sum of an amount over a run. -/
def total (amount : Shifted → Call → Nat) (s : Shifted) : List Call → Nat
  | [] => 0
  | c :: calls => amount s c + total amount (c.run s) calls

def position? (s : Shifted) (p : Nat) : List Call → Option Nat
  | [] => some p
  | c :: calls => (c.position? s p).bind fun p' => position? (c.run s) p' calls

/-- The vector at position `p` is at position `p'` in `t`, no farther from the start. -/
structure Carried (s t : Shifted) (p p' : Nat) : Prop where
  lt : p' < t.storage.count
  le : p' ≤ p
  row : rowOf t.storage.dimension t.storage.data p' = rowOf s.storage.dimension s.storage.data p

theorem Carried.refl {s : Shifted} {p : Nat} (hp : p < s.storage.count) : Carried s s p p :=
  ⟨hp, Nat.le_refl p, rfl⟩

theorem Carried.trans {s t u : Shifted} {p p' p'' : Nat} (h : Carried s t p p')
    (h' : Carried t u p' p'') : Carried s u p p'' :=
  ⟨h'.lt, h'.le.trans h.le, h'.row.trans h.row⟩

variable {s : Shifted}

/-! ## Steps -/

/-- A batch is stored behind the vectors there are, or refused. -/
theorem add_cases (s : Shifted) (x : Floats) :
    (Index.add s x).state = s ∧ (Call.add x).added s = 0 ∨
    ∃ storage, s.storage.append x = .ok storage ∧ (Index.add s x).state = { s with storage } ∧
      storage.count = s.storage.count + (Call.add x).added s := by
  have hadd : Index.add s x =
    .replace s ((s.storage.append x).map fun storage => { s with storage }) := rfl
  by_cases hwhole : x.size % s.storage.dimension = 0
  · have happend : s.storage.append x = .ok _ := dif_pos hwhole
    have hrows : rowCount s.storage.dimension x = .ok _ :=
      rowCount_eq_ok_iff.2 ⟨s.storage.dimension_pos, hwhole, rfl⟩
    refine .inr ⟨_, happend, by rw [hadd, happend]; rfl, ?_⟩
    rw [Storage.count_append happend hrows, Call.added, if_pos hwhole]
  · have happend : s.storage.append x = .error _ := dif_neg hwhole
    exact .inl ⟨by rw [hadd, happend]; rfl, if_neg hwhole⟩

theorem Call.shift_run (c : Call) : (c.run s).shift = s.shift := by
  cases c with
  | add x =>
    rcases s.add_cases x with ⟨hstate, -⟩ | ⟨storage, -, hstate, -⟩ <;> rw [run, hstate]
  | remove selector => rfl
  | search x k out => rfl

theorem Call.dimension_run (c : Call) : (c.run s).storage.dimension = s.storage.dimension := by
  cases c with
  | add x => exact (s.updates.add x).space.dimension
  | remove selector => rfl
  | search x k out => rfl

theorem Call.count_run (c : Call) :
    (c.run s).storage.count + c.removed s = s.storage.count + c.added s := by
  cases c with
  | add x =>
    rcases s.add_cases x with ⟨hstate, hadded⟩ | ⟨storage, -, hstate, hcount⟩
    · rw [run, hstate, hadded, removed]
    · rw [run, hstate, removed, ← hcount, Nat.add_zero]
  | remove selector =>
    have hleft := s.storage.removed_compact fun i => selector.isMember i
    have hcount := s.storage.count_compact fun i => selector.isMember i
    show (s.storage.compact _).1.count + (s.storage.compact _).2.removed = s.storage.count + 0
    omega
  | search x k out => rfl

/-- A removal moves what it spares behind the spared vectors before it. -/
theorem position?_remove (s : Shifted) (selector : Selector) (p : Nat) :
    (Call.remove selector).position? s p =
      if p < s.storage.count ∧ selector.isMember p = false then
        some (Storage.spared (fun i => selector.isMember i) p).length
      else none := by
  have hnew := s.storage.newLabel?_compact (fun i => selector.isMember i) p
  show ((s.storage.compact fun i => selector.isMember i).2.newLabel? p).map Int.toNat = _
  rw [hnew]
  split <;> rfl

theorem Call.carried (c : Call) {p p' : Nat} (hp : p < s.storage.count)
    (h : c.position? s p = some p') : Carried s (c.run s) p p' := by
  cases c with
  | add x =>
    cases h
    rcases s.add_cases x with ⟨hstate, -⟩ | ⟨storage, happend, hstate, hcount⟩
    · rw [run, hstate]
      exact .refl hp
    · obtain ⟨hdim, hdata⟩ := Storage.append_eq_ok happend
      rw [run, hstate]
      refine ⟨Nat.lt_of_lt_of_le hp ?_, Nat.le_refl p, ?_⟩
      · rw [hcount]
        exact Nat.le_add_right ..
      · rw [hdim, hdata]
        exact rowOf_append_left s.storage.size_data hp x
  | remove selector =>
    rw [position?_remove] at h
    obtain ⟨⟨-, hspared⟩, hp'⟩ := Option.ite_none_right_eq_some.1 h
    cases hp'
    have hlt : (Storage.spared (fun i => selector.isMember i) p).length <
        (Storage.spared (fun i => selector.isMember i) s.storage.count).length :=
      Storage.length_spared_lt hp hspared
    refine ⟨?_, ?_, s.storage.rowOf_compact _ hp hspared⟩
    · exact hlt.trans_eq (s.storage.count_compact _).symm
    · exact Storage.length_spared_le ..
  | search x k out =>
    cases h
    exact .refl hp

/-- A vector stays at its position just if those before it stay at theirs. -/
theorem Call.position?_eq_self_iff (c : Call) {p : Nat} (hp : p < s.storage.count) :
    c.position? s p = some p ↔ ∀ i ≤ p, (c.position? s i).isSome = true := by
  cases c with
  | remove selector =>
    have hsome : ∀ i ≤ p, ((Call.remove selector).position? s i).isSome = true ↔
        selector.isMember i = false := by
      intro i hi
      have hlt : i < s.storage.count := Nat.lt_of_le_of_lt hi hp
      rw [position?_remove]
      cases selector.isMember i <;> simp [hlt]
    rw [position?_remove, Option.ite_none_right_eq_some, Option.some.injEq,
      Storage.length_spared_eq_iff]
    constructor
    · rintro ⟨⟨-, hself⟩, hbefore⟩ i hi
      rw [hsome i hi]
      rcases Nat.lt_or_eq_of_le hi with hlt | rfl
      · exact hbefore i hlt
      · exact hself
    · intro h
      have hspared : ∀ i ≤ p, selector.isMember i = false := fun i hi => (hsome i hi).1 (h i hi)
      exact ⟨⟨hp, hspared p (Nat.le_refl p)⟩, fun i hi => hspared i hi.le⟩
  | add x => exact iff_of_true rfl fun _ _ => rfl
  | search x k out => exact iff_of_true rfl fun _ _ => rfl

/-! ## Runs -/

theorem shift_run (calls : List Call) : (s.run calls).shift = s.shift := by
  induction calls generalizing s with
  | nil => rfl
  | cons c calls ih => exact ih.trans c.shift_run

theorem dimension_run (calls : List Call) :
    (s.run calls).storage.dimension = s.storage.dimension := by
  induction calls generalizing s with
  | nil => rfl
  | cons c calls ih => exact ih.trans c.dimension_run

theorem count_run (calls : List Call) :
    (s.run calls).storage.count + total Call.removed s calls =
      s.storage.count + total Call.added s calls := by
  induction calls generalizing s with
  | nil => rfl
  | cons c calls ih =>
    have hstep := c.count_run (s := s)
    have hrest := ih (s := c.run s)
    show ((c.run s).run calls).storage.count + (c.removed s + total Call.removed (c.run s) calls) =
      s.storage.count + (c.added s + total Call.added (c.run s) calls)
    omega

theorem carried_run {calls : List Call} {p p' : Nat} (hp : p < s.storage.count)
    (h : s.position? p calls = some p') : Carried s (s.run calls) p p' := by
  induction calls generalizing s p with
  | nil =>
    cases h
    exact .refl hp
  | cons c calls ih =>
    obtain ⟨p₁, hfirst, hrest⟩ := Option.bind_eq_some_iff.1 h
    have hstep := c.carried hp hfirst
    exact hstep.trans (ih hstep.lt hrest)

/-- What holds of one call holds of a run: the first vector that a removal takes away moves all
those behind it that are left. -/
theorem position?_eq_self_iff {calls : List Call} {p : Nat} (hp : p < s.storage.count) :
    s.position? p calls = some p ↔ ∀ i ≤ p, (s.position? i calls).isSome = true := by
  induction calls generalizing s with
  | nil => exact iff_of_true rfl fun _ _ => rfl
  | cons c calls ih =>
    have hstep : ∀ i ≤ p, c.position? s i = some i ↔
        ∀ j ≤ i, (c.position? s j).isSome = true :=
      fun i hi => c.position?_eq_self_iff (Nat.lt_of_le_of_lt hi hp)
    constructor
    · intro h i hi
      obtain ⟨p₁, hfirst, hrest⟩ := Option.bind_eq_some_iff.1 h
      have hcarried := c.carried hp hfirst
      -- Nothing comes back up, so the first call has not moved the vector down.
      obtain rfl : p₁ = p := Nat.le_antisymm hcarried.le (carried_run hcarried.lt hrest).le
      have hstays : c.position? s i = some i :=
        (hstep i hi).2 fun j hj => (hstep p₁ (Nat.le_refl _)).1 hfirst j (hj.trans hi)
      rw [position?, hstays]
      exact (ih hcarried.lt).1 hrest i hi
    · intro h
      have hstays : ∀ i ≤ p, c.position? s i = some i := by
        refine fun i hi => (hstep i hi).2 fun j hj => ?_
        have hsome := h j (hj.trans hi)
        rw [position?] at hsome
        exact Option.isSome_of_isSome_bind hsome
      have hself := hstays p (Nat.le_refl p)
      rw [position?, hself]
      refine (ih (c.carried hp hself).lt).2 fun i hi => ?_
      have hsome := h i hi
      rwa [position?, hstays i hi] at hsome

theorem Call.position?_of_removed (c : Call) (hr : c.removed s = 0) {p : Nat}
    (hp : p < s.storage.count) : c.position? s p = some p := by
  cases c with
  | add x => rfl
  | remove selector =>
    have hnone : (s.storage.compact fun i => selector.isMember i).2.removed = 0 := hr
    have hleft := s.storage.removed_compact fun i => selector.isMember i
    rw [hnone, Nat.zero_add] at hleft
    have hall : ∀ i < s.storage.count, selector.isMember i = false :=
      Storage.length_spared_eq_iff.1 hleft
    have hbefore : (Storage.spared (fun i => selector.isMember i) p).length = p :=
      Storage.length_spared_eq_iff.2 fun i hi => hall i (hi.trans hp)
    rw [position?_remove, if_pos ⟨hp, hall p hp⟩, hbefore]
  | search x k out => rfl

theorem position?_of_removed {calls : List Call} (hr : total Call.removed s calls = 0) {p : Nat}
    (hp : p < s.storage.count) : s.position? p calls = some p := by
  induction calls generalizing s with
  | nil => rfl
  | cons c calls ih =>
    obtain ⟨hfirst, hrest⟩ := Nat.add_eq_zero_iff.1 hr
    have hself := c.position?_of_removed hfirst hp
    rw [position?, hself]
    exact ih hrest (c.carried hp hself).lt

/-! ## Searches after a run -/

/-- A search tells only how many vectors have come and gone. -/
theorem search_run_answer_iff {calls : List Call} {x : Floats} {k nq : Nat} {out : Slots}
    (h : checkShape s.storage.dimension x k out = .ok nq) :
    (Index.search (s.run calls) x k out).answer = .ok () ↔
      s.shift.size + total Call.removed s calls = s.storage.count + total Call.added s calls := by
  rw [← dimension_run calls] at h
  have hcount := count_run (s := s) calls
  rw [(s.run calls).search_answer_iff h, shift_run]
  omega

theorem search_run_of_ne {calls : List Call} {x : Floats} {k nq : Nat} {out : Slots}
    (h : checkShape s.storage.dimension x k out = .ok nq)
    (hne : s.shift.size + total Call.removed s calls ≠
      s.storage.count + total Call.added s calls) :
    Index.search (s.run calls) x k out =
      .fail (.shiftSizeMismatch s.shift.size (s.run calls).storage.count) out := by
  rw [← dimension_run calls] at h
  have hcount := count_run (s := s) calls
  rw [(s.run calls).search_of_shape h, shift_run, if_neg (by omega)]

/-- A vector is scored with the shift at the position where it is now. -/
theorem distance_of_search_run {calls : List Call} {p p' : Nat} (hp : p < s.storage.count)
    (h : s.position? p calls = some p') {x : Floats} {k : Nat} {out found : Slots}
    (hfound : Index.search (s.run calls) x k out = .done found) {i : Nat}
    (hi : i < x.size / s.storage.dimension) {c : Candidate} (hc : c ∈ (found.row k i).candidates)
    (hl : c.label = p') : c.distance = squaredDistance (rowOf s.storage.dimension x i)
      (rowOf s.storage.dimension s.storage.data p) - s.shift.getD p' .zero := by
  obtain ⟨-, -, -, rfl⟩ := search_of_done hfound
  rw [← dimension_run calls] at hi
  have hscore := (Scan.lists_best_cut hi).distance_of_label hc hl
  rwa [(carried_run hp h).row, shift_run, dimension_run] at hscore

theorem position_stays_iff {calls : List Call} {p p' : Nat} (hp : p < s.storage.count)
    (h : s.position? p calls = some p') :
    p' = p ↔ ∀ i < p, (s.position? i calls).isSome = true := by
  have hself : s.position? p calls = some p ↔ ∀ i ≤ p, (s.position? i calls).isSome = true :=
    position?_eq_self_iff hp
  rw [h, Option.some.injEq] at hself
  rw [hself]
  refine ⟨fun hall i hi => hall i hi.le, fun hall i hi => ?_⟩
  rcases Nat.lt_or_eq_of_le hi with hlt | rfl
  · exact hall i hlt
  · rw [h]
    rfl

/-- Additions, removals and searches leave the shifts alone. A search with buffers of the right size
then succeeds just if the vectors that were added make up for those removed, and fails otherwise
with its slots untouched. A vector that is still there is scored with the shift at its position of
now, and that is the one it was scored with before just if every vector before it is still there. In
particular, as long as nothing is added, each search that succeeds finds every vector with its
shift. -/
theorem shifts_go_by_position (s : Shifted) (calls : List Call) :
    (s.run calls).shift = s.shift ∧
    (∀ (x : Floats) (k nq : Nat) (out : Slots),
      checkShape s.storage.dimension x k out = .ok nq →
      ((Index.search (s.run calls) x k out).answer = .ok () ↔
        s.shift.size + total Call.removed s calls =
          s.storage.count + total Call.added s calls) ∧
      (s.shift.size + total Call.removed s calls ≠ s.storage.count + total Call.added s calls →
        Index.search (s.run calls) x k out =
          .fail (.shiftSizeMismatch s.shift.size (s.run calls).storage.count) out)) ∧
    (∀ p < s.storage.count, ∀ p', s.position? p calls = some p' →
      (p' = p ↔ ∀ i < p, (s.position? i calls).isSome = true) ∧
      ∀ (x : Floats) (k : Nat) (out found : Slots),
        Index.search (s.run calls) x k out = .done found →
        ∀ i < x.size / s.storage.dimension, ∀ c ∈ (found.row k i).candidates, c.label = (p' : Int) →
          c.distance = squaredDistance (rowOf s.storage.dimension x i)
            (rowOf s.storage.dimension s.storage.data p) - s.shift.getD p' .zero) ∧
    (s.shift.size = s.storage.count → total Call.added s calls = 0 →
      ∀ (x : Floats) (k : Nat) (out found : Slots),
        Index.search (s.run calls) x k out = .done found →
        ∀ p < s.storage.count, s.position? p calls = some p) := by
  refine ⟨shift_run calls, fun x k nq out h => ⟨search_run_answer_iff h, search_run_of_ne h⟩,
    fun p hp p' hp' => ⟨position_stays_iff hp hp', fun x k out found hfound i hi c hc hl =>
      distance_of_search_run hp hp' hfound hi hc hl⟩,
    fun hsync hadded x k out found hfound p hp => ?_⟩
  obtain ⟨hsize, -⟩ := search_of_done hfound
  rw [shift_run] at hsize
  have hcount := count_run (s := s) calls
  exact position?_of_removed (by omega) hp

/-- A refused batch, a removal from the middle that a search notices and one after the next batch
does not; and a removal of nothing. -/
theorem shifts_go_by_position_moved :
    let s : Shifted := ⟨⟨2, #[.zero, .zero, .one, .one, .one, .zero], by decide, by decide⟩,
      #[.one, .zero, .infinity]⟩
    let removal : List Call := [.add #[.one], .remove (.range 1 2)]
    let calls : List Call := removal ++ [.add #[.zero, .one]]
    let nothing : List Call := [.remove (.range 3 7), .search #[] 0 ⟨#[], #[]⟩]
    let out : Slots := ⟨.replicate 3 .one, .replicate 3 9⟩
    checkShape 2 #[.one, .zero] 3 out = .ok 1 ∧
      Index.search (s.run removal) #[.one, .zero] 3 out = .fail (.shiftSizeMismatch 3 2) out ∧
      (∃ found, Index.search (s.run calls) #[.one, .zero] 3 out = .done found ∧
        ∀ c ∈ (found.row 3 0).candidates, c.label = 1 → c.distance = .zero) ∧
      s.position? 2 calls = some 1 ∧ (¬∀ i < 2, (s.position? i calls).isSome = true) ∧
      (∃ found, Index.search (s.run nothing) #[.one, .zero] 3 out = .done found) ∧
      ∀ p < 3, s.position? p nothing = some p := by
  intro s removal calls nothing out
  have hshape : checkShape 2 #[.one, .zero] 3 out = .ok 1 := by decide
  have hmoved : s.position? 2 calls = some 1 := by decide +kernel
  obtain ⟨-, hremoval, -, -⟩ := s.shifts_go_by_position removal
  obtain ⟨-, hcalls, hcarried, -⟩ := s.shifts_go_by_position calls
  obtain ⟨-, hnothing, -, hstays⟩ := s.shifts_go_by_position nothing
  have hfails := (hremoval _ _ _ _ hshape).2 (by decide +kernel)
  have hcount : (s.run removal).storage.count = 2 := by decide +kernel
  rw [hcount] at hfails
  have hfound := Outcome.eq_done ((hcalls _ _ _ _ hshape).1.2 (by decide +kernel))
  have hfound' := Outcome.eq_done ((hnothing _ _ _ _ hshape).1.2 (by decide +kernel))
  obtain ⟨hself, hdistance⟩ := hcarried 2 (by decide) 1 hmoved
  refine ⟨hshape, hfails, ⟨_, hfound, fun c hc hl => ?_⟩, hmoved, ?_, ⟨_, hfound'⟩, ?_⟩
  · rw [hdistance _ _ _ _ hfound 0 (by decide) c hc hl]
    decide
  · rw [← hself]
    decide
  · exact fun p hp => hstays (by decide) rfl _ _ _ _ hfound' p (Nat.lt_of_lt_of_le hp (by decide))

/-- A vector is removed and another one added: the vector behind it is searched for with the shift
of the one that is gone, and the count does not show it. -/
theorem stale_shift_unnoticed :
    let s : Shifted := ⟨⟨1, #[.zero, .ofNat 10], by decide, by decide⟩, #[.one, .ofNat 2]⟩
    let calls : List Call := [.remove (.range 0 1), .add #[.ofNat 100]]
    let out : Slots := ⟨#[.zero], #[9]⟩
    (∃ found, Index.search s #[.ofNat 10] 1 out = .done found ∧
        found.row 1 0 = .ofCandidates [⟨.neg (.ofNat 2), 1⟩]) ∧
      s.position? 1 calls = some 0 ∧
      rowOf 1 (s.run calls).storage.data 0 = rowOf 1 s.storage.data 1 ∧
      ∃ found, Index.search (s.run calls) #[.ofNat 10] 1 out = .done found ∧
        found.row 1 0 = .ofCandidates [⟨.neg .one, 0⟩] := by
  intro s calls out
  have hshape : checkShape 1 #[.ofNat 10] 1 out = .ok 1 := by decide +kernel
  have hshape' : checkShape (s.run calls).storage.dimension #[.ofNat 10] 1 out = .ok 1 := by
    decide +kernel
  have hbefore := s.search_of_shape hshape
  have hafter := (s.run calls).search_of_shape hshape'
  rw [if_pos (by decide +kernel)] at hbefore hafter
  have hroom : (0 + 1) * 1 ≤ 1 := Nat.le_refl 1
  have hrow := s.nearestShifted_row (x := #[.ofNat 10]) (by decide +kernel) hroom
    (by decide +kernel)
  have hrow' := (s.run calls).nearestShifted_row (x := #[.ofNat 10]) (by decide +kernel) hroom
    (by decide +kernel)
  rw [← Candidate.eq_bestFirst (l := [⟨.neg (.ofNat 2), 1⟩, ⟨.ofNat 99, 0⟩]) (by decide +kernel)
    (by decide +kernel) (by decide +kernel)] at hrow
  rw [← Candidate.eq_bestFirst (l := [⟨.neg .one, 0⟩, ⟨.ofNat 8098, 1⟩]) (by decide +kernel)
    (by decide +kernel) (by decide +kernel)] at hrow'
  exact ⟨⟨_, hbefore, hrow.trans (by decide +kernel)⟩, by decide +kernel, by decide +kernel, _,
    hafter, hrow'.trans (by decide +kernel)⟩

end Neighbors.Shifted
