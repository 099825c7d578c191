import EvalMaxSat.FormulaCalls

/-!
The first solve of a formula: its result is optimal, and at every point of it the cost and the
stored solution bracket the optimum.
-/
namespace EvalMaxSat
open Literals OrderedContainers EvalMaxSAT StepProgram

variable {K : Type} {env : Env K} {core : K} {s t v : EvalMaxSAT K} {d : Story}
  {path : List (EvalMaxSAT K)} {b : Bool} {opening main : Trace K}

section Bare

structure Bare (s : EvalMaxSAT K) : Prop where
  cards : s.cards = []
  pending : s.cardToAdd = []

theorem bare_climbs {n : Nat} (bare : Bare s) (climbs : Climbs n s t)
    (length : t.cardToAdd.length + n ≤ s.cardToAdd.length) : Bare t := by
  have grown := climbs.length
  rw [bare.pending, List.length_nil] at length
  rw [bare.cards, List.length_nil] at grown
  exact ⟨List.length_eq_zero_iff.mp (by omega), List.length_eq_zero_iff.mp (by omega)⟩

theorem bare_settles (bare : Bare s) (settles : Settles s t) : Bare t := by
  obtain ⟨n, climbs, length⟩ := settles
  exact bare_climbs bare climbs length

theorem bare_effect {kind : StepKind} (bare : Bare s) (effect : Effect none kind s t) : Bare t := by
  have same : t.cards = s.cards → t.cardToAdd = s.cardToAdd → Bare t := fun cards pending =>
    ⟨cards.trans bare.cards, pending.trans bare.pending⟩
  cases kind with
  | start => exact effect.elim
  | stop => exact effect.elim
  | query => obtain ⟨core, last, rfl⟩ := effect; exact same rfl rfl
  | dropBucket => obtain ⟨m, rfl⟩ := effect; exact same rfl rfl
  | bound => obtain ⟨c, sol, rfl, _⟩ := effect; exact same rfl rfl
  | harden =>
    obtain ⟨_, _, _, _, unit⟩ := effect
    have pending : t.cardToAdd = s.cardToAdd := congrArg (fun b => b.2.1) unit.besides
    exact bare_climbs bare unit.climbs (by rw [pending, Nat.add_zero])
  | relax => exact bare_settles bare effect.2
  | card => exact bare_settles bare effect.2
  | unit => obtain ⟨_, _, settles⟩ := effect; exact bare_settles bare settles
  | core => obtain ⟨main, _⟩ := effect; simp at main
  | amo => obtain ⟨_, _, _, settles⟩ := effect; exact bare_settles bare settles
  | clique clause => rw [show t = s from effect.1]; exact bare
  | assums minWeight assum => rw [show t = s from effect.1]; exact bare
  | report c => rw [show t = s from effect.1]; exact bare

theorem bare_chain {tr : Trace K} (bare : Bare s) (steps : Chain s tr t)
    (ok : ∀ e ∈ tr, StepOk none e) : Bare t :=
  (chain_invariant Bare steps bare fun e mem before => bare_effect before (ok e mem).2.2).1

theorem not_exceeds_bare (bare : Bare s) (m : Assignment) : ¬ Exceeds m s := by
  rintro ⟨o, mem, _⟩
  rw [bare.cards] at mem
  exact absurd mem (List.not_mem_nil)

end Bare

section First

theorem history_first (sound : env.Sound) (h : History env core buildingCall d path s)
    (small : d.total < 2 ^ 63) : Described d s ∧ Loaded s := by
  have steady := history_steady sound (fun _ _ _ builds => builds) (fun _ _ _ never => never.elim)
    h small
  refine ⟨history_described sound (history_mono (fun _ _ _ both => both.2) steady) (by omega), ?_⟩
  refine (history_loaded (history_mono (fun d s c both => ?_) steady)).2
  cases c with
  | update u => exact ⟨(Story.admits_of_builds both.1).1, both.2.2⟩
  | solve => exact both.1

theorem first_kept (sound : env.Sound) (described : Described d s) (loaded : Loaded s)
    (small : d.total < 2 ^ 63) : ∃ t v opening main b, Phases env s t v opening main b ∧
      (solve env).Ends s (Phases.trace s v opening main) (.done b) v.stopped ∧
      Optimal d b v.stopped ∧ ∀ e ∈ Phases.trace s v opening main, Kept d e.after := by
  obtain ⟨t, v, opening, main, b, phases, ends⟩ := solve_phases sound described.between.sane
  have bare : Bare t := bare_chain (s := s.started) ⟨loaded.cards, loaded.pending⟩ phases.first
    phases.openingOk
  exact ⟨t, v, opening, main, b, phases, ends, solve_kept small described.between.sane phases
    described.faithful described.budget fun e _ _ => Or.inr (not_exceeds_bare bare _)⟩

/-- Whatever cost a step reports, there is a model that pays no more. -/
def Reports (d : Story) (e : Event StepKind (EvalMaxSAT K)) : Prop :=
  ∀ c, e.label = .report c → ∃ a, Models a d.hard ∧ d.softCost a ≤ c

theorem reports_step {lo : Option LocalOptimizer2} {e : Event StepKind (EvalMaxSAT K)} {f : Cnf}
    (ok : StepOk lo e) (kept : Kept d e.after) (sub : f ⊆ e.after.solver.clauses)
    (fair : lo = none ∨ ∀ sol, Fair d lo f sol) : Reports d e := by
  intro c report
  obtain ⟨_, _, effect⟩ := ok
  rw [report] at effect
  obtain ⟨same, sol, improves⟩ := effect
  rw [same] at kept sub
  refine ⟨assignment sol, improves_worth kept.faithful improves sub ?_⟩
  rcases fair with none | fair
  · rcases improves.counted with exact_c | ⟨l, here, _⟩
    · exact Or.inl exact_c
    · rw [none] at here
      simp at here
  · exact Or.inr (fair sol)

theorem first_reports (small : d.total < 2 ^ 63) (described : Described d s) (loaded : Loaded s)
    (phases : Phases env s t v opening main b)
    (kept : ∀ e ∈ Phases.trace s v opening main, Kept d e.after) :
    ∀ e ∈ Phases.trace s v opening main, Reports d e := by
  have bare : Bare t := bare_chain (s := s.started) ⟨loaded.cards, loaded.pending⟩ phases.first
    phases.openingOk
  have built := (kept_chain (f := []) small phases.first phases.openingOk
    (fun e _ _ => Or.inr fun l here => by simp at here) (List.nil_subset _)
    (kept_started described.faithful described.budget)).1
  have room := built.budget
  have clauses := (chain_invariant (fun u => t.solver.clauses ⊆ u.solver.clauses) phases.second
    (List.Subset.refl _) fun e mem before => List.Subset.trans before
      (stepped_of_solveStep (.inside (phases.mainOk e mem))).clauses).2
  have sane := chain_sane (sane_started described.between.sane) phases.first phases.openingOk
  intro e mem
  have here := kept e mem
  rcases List.mem_cons.mp mem with rfl | mem
  · exact fun c report => by simp at report
  rcases List.mem_append.mp mem with mem | mem
  · exact reports_step (phases.openingOk e mem) here (List.nil_subset _) (Or.inl rfl)
  rcases List.mem_append.mp mem with mem | mem
  · refine reports_step (phases.mainOk e mem) here (clauses e mem).2 (Or.inr fun sol => ?_)
    exact fair_of_not_exceeds sane (by omega) (phases.built (List.ne_nil_of_mem mem)).2
      (not_exceeds_bare bare _) built.faithful
  · rw [List.mem_singleton.mp mem]
    exact fun c report => by simp at report

/-- The first solve of a formula ends, and its result is optimal. -/
theorem first_solve_optimal (sound : env.Sound) (h : History env core buildingCall d path s)
    (small : d.total < 2 ^ 63) : ∃ tr b t, (solve env).Ends s tr (.done b) t ∧ Optimal d b t := by
  obtain ⟨described, loaded⟩ := history_first sound h small
  obtain ⟨t, v, opening, main, b, _, ends, optimal, _⟩ := first_kept sound described loaded small
  exact ⟨_, b, _, ends, optimal⟩

def pairScript : List Call :=
  [.update .newVar, .update .newVar, .update (.addClause [-1, -2] none),
    .update (.addClause [1] (some 2)), .update (.addClause [2] (some 3)),
    .update (.addClause [-1, 2] (some 1))]

def pairStory : Story := ⟨[1, 2], [3], [[-1, -2]], [([1], 2), ([2], 3), ([-1, 2], 1)]⟩

theorem pairScript_history : ∃ path s, History referenceBackEnd () buildingCall pairStory path s := by
  obtain ⟨d, path, s, history, facts⟩ := history_of_replay referenceBackEnd () buildingCall 1
    pairScript (fun r => decide (r.1 = pairStory)) (by decide +kernel)
  have same : d = pairStory := of_decide_eq_true facts
  rw [same] at history
  exact ⟨path, s, history⟩

theorem first_solve_optimal_pair : ∃ s : EvalMaxSAT Unit, ∃ tr b t,
    (solve referenceBackEnd).Ends s tr (.done b) t ∧ Optimal pairStory b t := by
  obtain ⟨path, s, history⟩ := pairScript_history
  exact ⟨s, first_solve_optimal reference_sound history (by decide)⟩

end First

section Brackets

/-- The cost is below what any better assignment pays, and the stored solution pays no more than
what is claimed of it. -/
structure Bracketed (d : Story) (s : EvalMaxSAT K) : Prop where
  below : ∀ a, Models a d.hard → d.softCost a < s.solutionCost → s.cost ≤ d.softCost a
  above : s.solutionCost ≠ maxWeight → Models (assignment s.solution) d.hard ∧
    d.softCost (assignment s.solution) ≤ s.solutionCost

theorem bracketed_of_kept (kept : Kept d s) : Bracketed d s where
  below := by
    intro a models beats
    obtain ⟨m, _, _, _, eq⟩ := kept.faithful.complete a models (Or.inr beats)
    rw [← eq, EvalMaxSAT.objective]
    exact Nat.le_add_right _ _
  above := kept.stored.worth

theorem bracketed_loaded (described : Described d s) (loaded : Loaded s) : Bracketed d s where
  below := by
    intro a models _
    obtain ⟨m, _, _, _, eq⟩ := described.faithful.complete a models trivial
    rw [← eq, EvalMaxSAT.objective]
    exact Nat.le_add_right _ _
  above := fun other => absurd loaded.first other

theorem lowers_or_keeps {e : Event StepKind (EvalMaxSAT K)} (loaded : Loaded s)
    (phases : Phases env s t v opening main b) (mem : e ∈ Phases.trace s v opening main) :
    (e.label = .bound → e.after.solutionCost < e.before.solutionCost) ∧
      (e.label ≠ .bound → e.after.solutionCost = e.before.solutionCost ∧
        e.after.solution = e.before.solution) := by
  have inside : ∀ {lo : Option LocalOptimizer2}, StepOk lo e →
      (e.label = .bound → e.after.solutionCost < e.before.solutionCost) ∧
      (e.label ≠ .bound → e.after.solutionCost = e.before.solutionCost ∧
        e.after.solution = e.before.solution) := by
    rintro lo ⟨_, _, effect⟩
    refine ⟨fun bound => ?_, fun other => ?_⟩
    · rw [bound] at effect
      obtain ⟨c, sol, eq, improves⟩ := effect
      rw [eq]
      exact improves.lower
    · have same := effect_aside effect other
      simp only [EvalMaxSAT.aside, Prod.mk.injEq] at same
      simp only [same, and_self]
  rcases List.mem_cons.mp mem with rfl | mem
  · exact ⟨by simp, fun _ => ⟨loaded.first.symm, rfl⟩⟩
  · rcases List.mem_append.mp mem with mem | mem
    · exact inside (phases.openingOk e mem)
    · rcases List.mem_append.mp mem with mem | mem
      · exact inside (phases.mainOk e mem)
      · rw [List.mem_singleton.mp mem]
        exact ⟨by simp, fun _ => ⟨rfl, rfl⟩⟩

/-- At every point of the first solve the two bounds hold, and the upper one only goes down. -/
theorem bounds_bracket (sound : env.Sound) (h : History env core buildingCall d path s)
    (small : d.total < 2 ^ 63) : ∃ tr b t, (solve env).Ends s tr (.done b) t ∧ Bracketed d s ∧
      ∀ e ∈ tr, Bracketed d e.after ∧
        (e.label = .bound → e.after.solutionCost < e.before.solutionCost) ∧
        (e.label ≠ .bound → e.after.solutionCost = e.before.solutionCost ∧
          e.after.solution = e.before.solution) := by
  obtain ⟨described, loaded⟩ := history_first sound h small
  obtain ⟨t, v, opening, main, b, phases, ends, _, kept⟩ := first_kept sound described loaded small
  exact ⟨_, b, _, ends, bracketed_loaded described loaded, fun e mem =>
    ⟨bracketed_of_kept (kept e mem), lowers_or_keeps loaded phases mem⟩⟩

theorem bounds_bracket_pair : ∃ s : EvalMaxSAT Unit, ∃ tr b t,
    (solve referenceBackEnd).Ends s tr (.done b) t ∧ Bracketed pairStory s ∧
      ∀ e ∈ tr, Bracketed pairStory e.after ∧
        (e.label = .bound → e.after.solutionCost < e.before.solutionCost) ∧
        (e.label ≠ .bound → e.after.solutionCost = e.before.solutionCost ∧
          e.after.solution = e.before.solution) := by
  obtain ⟨path, s, history⟩ := pairScript_history
  exact ⟨s, bounds_bracket reference_sound history (by decide)⟩

end Brackets
end EvalMaxSat
