import EvalMaxSat.Rounds

/-!
Consecutive satisfiable strata: the bound falls with each of them until it is 1, and then
every literal of the index is assumed.
-/
namespace EvalMaxSat
open Literals OrderedContainers EvalMaxSAT StepProgram

variable {K : Type} {env : Env K} {lo : LocalOptimizer2} {s t u : EvalMaxSAT K}
  {st st' final : Stratum}

/-- A round whose full call finds a model, and which is followed by another one. -/
def SatRound (env : Env K) (lo : LocalOptimizer2) (st : Stratum) (s : EvalMaxSAT K) (st' : Stratum)
    (t : EvalMaxSAT K) : Prop :=
  (∃ tr u, (solverSolve env st.assum.elems).Ends s tr (.done true) u) ∧
    ∃ tr, (mainRound env lo st).Ends s tr (.done (.inl st')) t

inductive SatRounds (env : Env K) (lo : LocalOptimizer2) :
    Nat → Stratum → EvalMaxSAT K → Stratum → EvalMaxSAT K → Prop
  | stop {st : Stratum} {s : EvalMaxSAT K} : SatRounds env lo 0 st s st s
  | round {n : Nat} {st st' final : Stratum} {s t u : EvalMaxSAT K} : SatRound env lo st s st' t →
      SatRounds env lo n st' t final u → SatRounds env lo (n + 1) st s final u

/-- What a satisfiable round that is not the last does. -/
structure Advances (st : Stratum) (s : EvalMaxSAT K) (st' : Stratum) (t : EvalMaxSAT K) : Prop where
  thinned : ∃ v, Asked s v ∧ Thins v t
  next : NextBound st.minWeightToConsider st'.minWeightToConsider t
  assum : st'.assum = t.initAssum st'.minWeightToConsider

theorem positiveKeys_asked (positive : PositiveKeys s) (asked : Asked s t) : PositiveKeys t := by
  obtain ⟨_, _, rfl⟩ := asked
  exact positive

theorem wp_satRound (lo : LocalOptimizer2) (positive : PositiveKeys s)
    (call : ∃ tr u, (solverSolve env st.assum.elems).Ends s tr (.done true) u) :
    Wp (fun _ => True) (mainRound env lo st) (fun x t =>
      (x = .inr true ∧ (s.solutionCost ≤ s.cost ∨ st.minWeightToConsider = 1)) ∨
        ∃ st', x = .inl st' ∧ st.minWeightToConsider ≠ 1 ∧ Advances st s st' t) s := by
  have answered : Wp (fun _ => True) (solverSolve env st.assum.elems) (fun b t => b = true ∧ Asked s t)
      s := by
    obtain ⟨tr, u, ends⟩ := call
    refine ⟨tr, true, u, ends, fun _ _ => trivial, rfl, ?_⟩
    obtain ⟨tr', b, v, ends', _, asked⟩ : Wp (fun _ => True) (solverSolve env st.assum.elems)
        (fun _ t => Asked s t) s := by
      apply wp_bind
      apply wp_query (free_every s)
      intro core
      cases (env.answer s.solver.core s.solver.clauses st.assum.elems .unlimited).1 <;>
        exact wp_pure (asked_answered _ _ _)
    obtain ⟨_, _, rfl⟩ := Prog.ends_unique ends ends'
    exact asked
  apply wp_bind_read
  refine wp_ite (fun met => wp_pure (Or.inl ⟨rfl, Or.inl met⟩)) (fun _ => ?_)
  apply wp_bind
  apply wp_act trivial
  apply wp_bind
  apply wp_mono answered
  rintro b v ⟨rfl, asked⟩
  refine wp_ite (fun _ => ?_) (fun no => absurd rfl no)
  refine wp_ite (fun last => ?_) (fun notLast => ?_)
  · apply wp_bind
    apply wp_act trivial
    exact wp_pure (Or.inl ⟨rfl, Or.inr last⟩)
  · apply wp_bind
    apply wp_mono (wp_chooseNextMinWeight (fun _ _ _ _ => trivial) (positiveKeys_asked positive asked))
    rintro w t ⟨thins, next⟩
    apply wp_bind_read
    exact wp_pure (Or.inr ⟨_, rfl, notLast, ⟨v, asked, thins⟩, next, rfl⟩)

theorem satRound_advances (positive : PositiveKeys s) (round : SatRound env lo st s st' t) :
    st.minWeightToConsider ≠ 1 ∧ Advances st s st' t := by
  obtain ⟨call, tr, ends⟩ := round
  obtain ⟨_, x, u, ends', _, post⟩ := wp_satRound lo positive call
  obtain ⟨_, same, rfl⟩ := Prog.ends_unique ends ends'
  rw [← Outcome.done.inj same] at post
  rcases post with ⟨returned, _⟩ | ⟨st'', eq, more⟩
  · simp at returned
  · rw [Sum.inl.inj eq]
    exact more

theorem satRound_exists (lo : LocalOptimizer2) (positive : PositiveKeys s)
    (call : ∃ tr u, (solverSolve env st.assum.elems).Ends s tr (.done true) u)
    (lower : s.cost < s.solutionCost) (more : st.minWeightToConsider ≠ 1) :
    ∃ st' t, SatRound env lo st s st' t := by
  obtain ⟨tr, x, t, ends, _, post⟩ := wp_satRound lo positive call
  rcases post with ⟨_, met | last⟩ | ⟨st', eq, _⟩
  · omega
  · exact absurd last more
  · rw [eq] at ends
    exact ⟨st', t, call, tr, ends⟩

theorem positiveKeys_advances (positive : PositiveKeys s) (advances : Advances st s st' t) :
    PositiveKeys t := by
  obtain ⟨v, asked, thins⟩ := advances.thinned
  exact positiveKeys_thins (positiveKeys_asked positive asked) thins

theorem inBucket_advances {w : Nat} {l : Int} (advances : Advances st s st' t)
    (indexed : InBucket s.mapWeight2Assum w l) : InBucket t.mapWeight2Assum w l := by
  obtain ⟨v, ⟨_, _, rfl⟩, thins⟩ := advances.thinned
  obtain ⟨b, found, mem⟩ := indexed
  exact ⟨b, thins_bucket thins found mem, mem⟩

theorem initAssum_all {w : Nat} {l : Int} (positive : PositiveKeys s)
    (indexed : InBucket s.mapWeight2Assum w l) : l ∈ s.initAssum 1 := by
  obtain ⟨b, found, mem⟩ := indexed
  exact mem_initAssum.mpr ⟨w, b, found, mem, positive w b found (List.ne_nil_of_mem mem)⟩

theorem satRounds_bound {n : Nat} (rounds : SatRounds env lo n st s final u)
    (positive : PositiveKeys s) (least : 1 ≤ st.minWeightToConsider)
    (assum : st.assum = s.initAssum st.minWeightToConsider) :
    final.minWeightToConsider + n ≤ st.minWeightToConsider ∧ 1 ≤ final.minWeightToConsider ∧
      (final.minWeightToConsider = 1 →
        ∀ w l, InBucket s.mapWeight2Assum w l → l ∈ final.assum) := by
  induction rounds with
  | stop =>
    refine ⟨Nat.le_refl _, least, fun one w l indexed => ?_⟩
    rw [assum, one]
    exact initAssum_all positive indexed
  | round first _ ih =>
    obtain ⟨more, advances⟩ := satRound_advances positive first
    obtain ⟨fewer, least', all⟩ := ih (positiveKeys_advances positive advances)
      advances.next.least advances.assum
    have less := advances.next.less (by omega)
    refine ⟨by omega, least', fun one w l indexed => ?_⟩
    exact all one w l (inBucket_advances advances indexed)

/-- Only an unsatisfiable call, or a bound already met, stops the strata before the last. -/
theorem satRounds_reach (positive : PositiveKeys s) (least : 1 ≤ st.minWeightToConsider) :
    ∃ n final u, SatRounds env lo n st s final u ∧ (final.minWeightToConsider = 1 ∨
      u.solutionCost ≤ u.cost ∨
      ∃ tr v, (solverSolve env final.assum.elems).Ends u tr (.done false) v) := by
  induction measure : st.minWeightToConsider using Nat.strong_induction_on generalizing st s with
  | _ bound ih =>
    by_cases last : st.minWeightToConsider = 1
    · exact ⟨0, st, s, .stop, Or.inl last⟩
    by_cases met : s.solutionCost ≤ s.cost
    · exact ⟨0, st, s, .stop, Or.inr (Or.inl met)⟩
    obtain ⟨tr, b, v, ends, _, _⟩ : Wp (fun _ => True) (solverSolve env st.assum.elems)
        (fun _ _ => True) s := by
      apply wp_bind
      apply wp_query (free_every s)
      intro core
      cases (env.answer s.solver.core s.solver.clauses st.assum.elems .unlimited).1 <;>
        exact wp_pure trivial
    cases b with
    | false => exact ⟨0, st, s, .stop, Or.inr (Or.inr ⟨tr, v, ends⟩)⟩
    | true =>
      obtain ⟨st', t, first⟩ := satRound_exists lo positive ⟨tr, v, ends⟩ (by omega) last
      obtain ⟨_, advances⟩ := satRound_advances positive first
      have less := advances.next.less (by omega)
      obtain ⟨n, final, u, rest, reached⟩ := ih st'.minWeightToConsider (by omega)
        (positiveKeys_advances positive advances) advances.next.least rfl
      exact ⟨n + 1, final, u, .round first rest, reached⟩

/-- The choice of the next bound ends with a smaller one, and satisfiable strata go on until
the bound is 1 and all literals of the index are assumed. -/
theorem strata_progress (positive : PositiveKeys s) :
    (∀ bound, 1 < bound → ∃ tr w t, (chooseNextMinWeight env bound).Ends s tr (.done w) t ∧
      Thins s t ∧ 1 ≤ w ∧ w < bound ∧
      (w = 1 ∨ ∃ b, t.mapWeight2Assum.lookup w = some b ∧ b.elems ≠ [])) ∧
    ∀ st : Stratum, 1 ≤ st.minWeightToConsider → st.assum = s.initAssum st.minWeightToConsider →
      (∀ n final u, SatRounds env lo n st s final u →
        final.minWeightToConsider + n ≤ st.minWeightToConsider ∧ 1 ≤ final.minWeightToConsider ∧
        (final.minWeightToConsider = 1 →
          ∀ w l, InBucket s.mapWeight2Assum w l → l ∈ final.assum)) ∧
      ∃ n final u, SatRounds env lo n st s final u ∧ (final.minWeightToConsider = 1 ∨
        u.solutionCost ≤ u.cost ∨
        ∃ tr v, (solverSolve env final.assum.elems).Ends u tr (.done false) v) := by
  constructor
  · intro bound several
    obtain ⟨tr, w, t, ends, _, thins, next⟩ : Wp (fun _ => True) (chooseNextMinWeight env bound)
        (fun w t => Thins s t ∧ NextBound bound w t) s :=
      wp_chooseNextMinWeight (fun _ _ _ _ => trivial) positive
    exact ⟨tr, w, t, ends, thins, next.least, next.less several, next.inhabited⟩
  · intro st least assum
    exact ⟨fun n final u rounds => satRounds_bound rounds positive least assum,
      satRounds_reach positive least⟩

theorem positiveKeys_of_entries
    (all : ∀ e ∈ s.mapWeight2Assum.entries, e.2.elems ≠ [] → 0 < e.1) : PositiveKeys s :=
  fun w b found nonempty => all (w, b) (OMap.mem_entries.mpr found) nonempty

/-- The bucket of the weight 3 has lost its literal. -/
def hollowIndex : EvalMaxSAT Unit :=
  let m : WeightMap := WeightMap.insertLit (WeightMap.insertLit OMap.empty 2 1) 3 2
  { fresh () with mapWeight2Assum := WeightMap.insertLit (WeightMap.eraseLit m 3 2) 9 3 }

theorem strata_progress_hollow :
    (∃ tr w t, (chooseNextMinWeight referenceBackEnd 9).Ends hollowIndex tr (.done w) t ∧
      Thins hollowIndex t ∧ w < 9) ∧
    ∃ n final u, SatRounds referenceBackEnd ⟨⟨[0]⟩, 0⟩ n ⟨9, hollowIndex.initAssum 9⟩ hollowIndex
      final u := by
  obtain ⟨choice, strata⟩ := @strata_progress _ referenceBackEnd ⟨⟨[0]⟩, 0⟩ hollowIndex
    (positiveKeys_of_entries (by decide))
  obtain ⟨tr, w, t, ends, thins, _, less, _⟩ := choice 9 (by decide)
  obtain ⟨_, n, final, u, rounds, _⟩ := strata ⟨9, hollowIndex.initAssum 9⟩ (by decide) rfl
  exact ⟨⟨tr, w, t, ends, thins, less⟩, n, final, u, rounds⟩

end EvalMaxSat
