import Neighbors.Proofs.Offered

/-!
# The order of the offers

Numbers under different labels have one order from the best to the worst. A finished row is the
beginning of it, so that neither the order in which the candidates were offered nor their division
into batches can be told from the row (`TopK.Offered.finish_eq_of_perm`).
-/

namespace Neighbors

namespace Candidate

variable {metric : Metric}

/-- Whether `a` comes before `b` in a row: it is better, or they tie and its label is smaller. -/
def Precedes (metric : Metric) (a b : Candidate) : Prop :=
  metric.isBetter a.distance b.distance = true ∨
    a.distance.eq b.distance = true ∧ a.label < b.label

theorem precedes_iff {a b : Candidate} (ha : a.IsNumber) (hb : b.IsNumber) :
    a.Precedes metric b ↔ a.rank metric < b.rank metric := by
  rw [Precedes, metric.isBetter_iff ha hb, metric.eq_iff_rank_eq ha hb, rank, rank,
    Prod.Lex.toLex_lt_toLex]

theorem bestFirst_eq_of_perm {cs ds : List Candidate} (hp : ds.Perm cs) (hd : Consistent cs) :
    bestFirst metric ds = bestFirst metric cs :=
  eq_bestFirst ((bestFirst_perm metric ds).trans hp) (bestFirst_pairwise metric ds) hd

theorem bestFirst_precedes (metric : Metric) {cs : List Candidate} (hn : ∀ c ∈ cs, c.IsNumber)
    (hd : (cs.map label).Nodup) : (bestFirst metric cs).Pairwise (Precedes metric) := by
  have hperm := bestFirst_perm metric cs
  have hlabels : (bestFirst metric cs).Pairwise fun a b => a.label ≠ b.label :=
    List.pairwise_map.1 ((hperm.map label).nodup_iff.2 hd)
  refine ((bestFirst_pairwise metric cs).and hlabels).imp_of_mem fun {a b} ha hb hab => ?_
  rw [precedes_iff (hn a (hperm.mem_iff.1 ha)) (hn b (hperm.mem_iff.1 hb))]
  refine lt_of_le_of_ne hab.1 fun heq => hab.2 ?_
  exact congrArg (fun r => (ofLex r).2) heq

end Candidate

namespace TopK

variable {metric : Metric} {k : Nat} {t t' : TopK} {offered offered' gone gone' : List Candidate}

theorem Offered.size_eq (h : Offered metric k t offered gone) :
    t.size = min k (offered.filter Candidate.isLabelled).length := by
  obtain ⟨rfl, -⟩ := h.eq_extend
  simpa [TopK.empty, size] using size_extend (TopK.empty metric k) offered

theorem Offered.finish_eq (h : Offered metric k t offered gone) (hn : ∀ c ∈ offered, c.IsNumber)
    (hd : Candidate.Consistent (offered.filter Candidate.isLabelled)) :
    t.finish = (Candidate.bestFirst metric (offered.filter Candidate.isLabelled)).take k ++
      List.replicate (k - (offered.filter Candidate.isLabelled).length) .padding := by
  obtain ⟨rfl, -⟩ := h.eq_extend
  exact finish_ofCandidates metric k hn hd

/-- Two collectors that were offered the same numbers under different labels, in whatever order and
divided into whatever batches, hold as many candidates and end with the same row, bit for bit. It
begins with as many candidates as there are or as fit, each before the next, and before all that
were left out; padding follows. -/
theorem Offered.finish_eq_of_perm (h : Offered metric k t offered gone)
    (h' : Offered metric k t' offered' gone') (hp : offered'.Perm offered)
    (hn : ∀ c ∈ offered, c.IsNumber) (hd : (offered.map Candidate.label).Nodup) :
    t'.size = t.size ∧ t'.finish = t.finish ∧
      t.size = min k (offered.filter Candidate.isLabelled).length ∧
      ∃ best : List Candidate, best.length = t.size ∧
        t.finish = best ++ List.replicate (k - t.size) .padding ∧
        best.Subperm (offered.filter Candidate.isLabelled) ∧
        best.Pairwise (Candidate.Precedes metric) ∧
        ∀ a ∈ best, ∀ b ∈ offered.filter Candidate.isLabelled, b ∉ best → a.Precedes metric b := by
  have hlabelled := hp.filter Candidate.isLabelled
  have hd' : ((offered.filter Candidate.isLabelled).map Candidate.label).Nodup :=
    hd.sublist (List.filter_sublist.map _)
  have hn' : ∀ c ∈ offered.filter Candidate.isLabelled, c.IsNumber :=
    fun c hc => hn c (List.mem_of_mem_filter hc)
  have hdistinct := Candidate.Consistent.of_nodup hd'
  have hsize := h.size_eq
  have hrow := h.finish_eq hn hdistinct
  have hsize' : t'.size = t.size := by rw [h'.size_eq, hsize, hlabelled.length_eq]
  have hrow' : t'.finish = t.finish := by
    have hdistinct' : Candidate.Consistent (offered'.filter Candidate.isLabelled) :=
      .of_nodup ((hlabelled.map Candidate.label).nodup_iff.2 hd')
    rw [h'.finish_eq (fun c hc => hn c (hp.mem_iff.1 hc)) hdistinct', hrow, hlabelled.length_eq,
      Candidate.bestFirst_eq_of_perm hlabelled hdistinct]
  have hperm := Candidate.bestFirst_perm metric (offered.filter Candidate.isLabelled)
  have hsorted := Candidate.bestFirst_precedes metric hn' hd'
  rw [← List.take_append_drop k (Candidate.bestFirst metric _)] at hsorted
  obtain ⟨htake, -, hahead⟩ := List.pairwise_append.1 hsorted
  refine ⟨hsize', hrow', hsize, _, ?_, ?_, ?_, htake, fun a ha b hb hout => hahead a ha b ?_⟩
  · rw [List.length_take, hperm.length_eq, hsize]
  · have hrest : k - (offered.filter Candidate.isLabelled).length = k - t.size := by omega
    rw [hrow, hrest]
  · exact (List.take_sublist k _).subperm.trans hperm.subperm
  · have hmem := hperm.mem_iff.2 hb
    rw [← List.take_append_drop k (Candidate.bestFirst metric _)] at hmem
    exact (List.mem_append.1 hmem).resolve_left hout

/-- Zeros that tie, pushed one by one, and in another order from a first batch on. -/
theorem Offered.finish_eq_of_perm_tied :
    let offered : List Candidate := [⟨.zero, 4⟩, ⟨.negZero, 3⟩, ⟨.one, noLabel⟩, ⟨.negInfinity, 2⟩]
    let offered' : List Candidate := [⟨.negInfinity, 2⟩, ⟨.zero, 4⟩] ++ [⟨.one, noLabel⟩] ++
      [⟨.negZero, 3⟩]
    let t := (TopK.empty .innerProduct 2).extend offered
    let t' := ((TopK.ofCandidates .innerProduct 2 [⟨.negInfinity, 2⟩, ⟨.zero, 4⟩]).extend
      [⟨.one, noLabel⟩]).push ⟨.negZero, 3⟩
    offered'.Perm offered ∧ t'.finish = t.finish ∧ t.size = 2 ∧
      t.finish = [⟨.negZero, 3⟩, ⟨.zero, 4⟩] := by
  intro offered offered' t t'
  have hp : offered'.Perm offered := by decide
  have h : Offered .innerProduct 2 t ([] ++ offered) _ := .extend offered .empty
  have h' : Offered .innerProduct 2 t' offered' _ := .push _ (.extend _ (.ofCandidates _))
  obtain ⟨-, hsame, hsize, -⟩ :=
    Offered.finish_eq_of_perm h h' hp (by decide +kernel) (by decide)
  exact ⟨hp, hsame, hsize.trans (by decide), by decide +kernel⟩

end TopK

end Neighbors
