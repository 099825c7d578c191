import EvalMaxSat.Retention

/-!
Where a solve stores a solution, which has an entry for every variable there is at that point.
-/
namespace EvalMaxSat
open Literals OrderedContainers EvalMaxSAT StepProgram

variable {K : Type} {env : Env K} {s : EvalMaxSAT K} {n c : Nat} {sol : List Bool}
  {lo : LocalOptimizer2}

theorem getSolution_covering (vars : s.solver.nVar = n) : Covering n s.solver.getSolution := by
  unfold Solver_cadical.getSolution
  split
  · right
    rw [List.length_append, List.length_replicate]
    omega
  · exact Or.inl rfl

theorem storing (covering : Covering s.solver.nVar sol) :
    StoresOrRetains ⟨.bound, s, { s with solutionCost := c, solution := sol }⟩ :=
  ⟨fun _ => ⟨rfl, covering⟩, fun other => absurd rfl other⟩

theorem along_optimize (vars : s.solver.nVar = n) (covering : Covering n sol) :
    Along StoresOrRetains (lo.optimize env sol) (fun r t => t.solver.nVar = n ∧ Covering n r.2) s := by
  apply along_bind
  refine along_mono (along_fold (fun _ t => t.solver.nVar = n) (fun r lit t same => ?_) _ vars) ?_
  · apply along_bind
    apply along_mono (along_solverSolveLimited _ _ _ t)
    intro x u still
    have same' : u.solver.nVar = n := still.trans same
    split <;> exact along_pure same'
  · rintro ⟨assumSatisfied, modify⟩ t same
    apply along_ite
    · intro _
      apply along_bind
      apply along_mono (along_solverSolve assumSatisfied t)
      intro _ u still
      apply along_bind_read
      exact along_pure ⟨still.trans same, getSolution_covering (still.trans same)⟩
    · intro _
      exact along_pure ⟨same, covering⟩

theorem stepwise_assertAssum (minWeightToConsider : Nat) (assum : OSet Int) :
    Stepwise StoresOrRetains (assertAssum minWeightToConsider assum : Program K Unit) :=
  stepwise_step (by simp) fun s => retains_refl s

theorem stepwise_hardenAndAdapt (minWeightToConsider : Nat) (assum : OSet Int) :
    Stepwise StoresOrRetains (hardenAndAdapt env minWeightToConsider assum) := by
  apply stepwise_bind (stepwise_harden assum)
  rintro ⟨nbHarden, assum⟩
  apply stepwise_ite (stepwise_pure _)
  apply stepwise_bind (stepwise_adapt_am1_VeryFastHeuristic)
  intro found
  apply stepwise_read
  intro s
  apply stepwise_ite <;> exact stepwise_pure _

theorem stepwise_improveBound (minWeightToConsider : Nat) (assum : OSet Int) :
    Stepwise StoresOrRetains (improveBound env lo minWeightToConsider assum) := by
  intro s
  apply along_bind_read
  apply along_ite
  · intro _
    apply along_bind
    apply along_mono (along_optimize rfl (getSolution_covering rfl))
    rintro ⟨curCost, curSolution⟩ t ⟨same, covering⟩
    rw [← same] at covering
    apply along_bind_read
    apply along_ite
    · intro _
      apply along_bind
      apply along_act (retaining (by simp) (retains_refl t))
      apply along_bind
      exact along_act (storing covering) (stepwise_hardenAndAdapt _ _ _)
    · intro _
      exact along_pure trivial
  · intro _
    exact along_pure trivial

theorem stepwise_treatCore (st : Stratum) : Stepwise StoresOrRetains (treatCore env st) := by
  apply stepwise_bind (stepwise_getConflict st.assum)
  intro conflict
  apply stepwise_read
  intro s
  apply stepwise_ite (stepwise_pure _)
  apply stepwise_bind (stepwise_findCore _ _)
  intro conflict
  apply stepwise_read
  intro s
  apply stepwise_ite (stepwise_pure _)
  apply stepwise_bind (stepwise_step (by simp) fun s => retains_splitCore _ _ _ s)
  intro assum
  apply stepwise_read
  intro s
  apply stepwise_ite (stepwise_pure _)
  apply stepwise_ite
  · apply stepwise_bind (stepwise_hardenAndAdapt _ _)
    exact fun _ => stepwise_pure _
  · exact stepwise_pure _

theorem stepwise_treatModel (st : Stratum) : Stepwise StoresOrRetains (treatModel env lo st) := by
  apply stepwise_read
  intro s
  apply stepwise_ite
  · apply stepwise_bind (stepwise_step (by simp) fun s => retains_relaxPending _ _ s)
    intro assum
    apply stepwise_bind (stepwise_assertAssum _ _)
    exact fun _ => stepwise_pure _
  · apply stepwise_bind (stepwise_improveBound _ _)
    intro assum
    apply stepwise_bind
    · apply stepwise_loop
      intro assum
      apply stepwise_read
      intro s
      apply stepwise_ite (stepwise_pure _)
      apply stepwise_bind (stepwise_step (by simp) fun s => retains_addFrontCard _ _ s)
      exact fun _ => stepwise_pure _
    · exact fun _ => stepwise_pure _

theorem stepwise_limitedSat (assum : OSet Int) : Stepwise StoresOrRetains (limitedSat env assum) := by
  apply stepwise_read
  intro s
  apply stepwise_ite
  · exact stepwise_solverSolveLimited _ _ _
  · apply stepwise_bind (stepwise_solverSolve _)
    exact fun _ => stepwise_pure _

theorem stepwise_treatAnswer (result : Option Bool) (st : Stratum) :
    Stepwise StoresOrRetains (treatAnswer env lo result st) := by
  unfold treatAnswer
  split
  · apply stepwise_bind (stepwise_treatCore st)
    intro x
    cases x <;> exact stepwise_pure _
  · apply stepwise_bind (stepwise_treatModel st)
    intro x
    cases x <;> exact stepwise_pure _
  · apply stepwise_read
    exact fun _ => stepwise_pure _

theorem stepwise_nextAnswer (x : Leave ⊕ Stratum) : Stepwise StoresOrRetains (nextAnswer env x) := by
  cases x with
  | inl leave => exact stepwise_pure _
  | inr st =>
    apply stepwise_read
    intro s
    apply stepwise_ite (stepwise_pure _)
    apply stepwise_bind (stepwise_limitedSat _)
    exact fun _ => stepwise_pure _

theorem stepwise_innerLoop (st : Stratum) : Stepwise StoresOrRetains (innerLoop env lo st) := by
  apply stepwise_loop
  rintro ⟨result, st⟩
  apply stepwise_bind (stepwise_treatAnswer result st)
  exact stepwise_nextAnswer

theorem stepwise_bound : Stepwise StoresOrRetains (.act .bound fun s =>
    ((), { s with solutionCost := s.cost, solution := s.solver.getSolution }) : Program K Unit) :=
  stepwise_act fun _ => storing (getSolution_covering rfl)

theorem stepwise_mainRound (st : Stratum) : Stepwise StoresOrRetains (mainRound env lo st) := by
  apply stepwise_read
  intro s
  apply stepwise_ite (stepwise_pure _)
  apply stepwise_bind (stepwise_assertAssum _ _)
  intro _
  apply stepwise_bind (stepwise_solverSolve _)
  intro satisfiable
  apply stepwise_ite
  · apply stepwise_ite
    · apply stepwise_bind stepwise_bound
      exact fun _ => stepwise_pure _
    · apply stepwise_bind (stepwise_chooseNextMinWeight _)
      intro minWeight
      apply stepwise_read
      exact fun _ => stepwise_pure _
  · apply stepwise_bind (stepwise_innerLoop st)
    intro leave
    cases leave with
    | ret b => exact stepwise_pure _
    | brk st =>
      apply stepwise_bind (stepwise_step (by simp) fun s => retains_relaxPending _ _ s)
      intro assum
      apply stepwise_bind (stepwise_step (by simp) fun s => retains_addPendingCards _ _ s)
      exact fun _ => stepwise_pure _

theorem stepwise_mainLoop : Stepwise StoresOrRetains (mainLoop env) := by
  apply stepwise_read
  intro s
  apply stepwise_bind (stepwise_chooseNextMinWeight _)
  intro minWeight
  apply stepwise_read
  intro s
  apply stepwise_loop
  exact stepwise_mainRound

theorem stepwise_prologue : Stepwise StoresOrRetains (prologue env) := by
  apply stepwise_bind (stepwise_step (by simp) fun s => retains_relaxPending _ _ s)
  intro _
  apply stepwise_bind (stepwise_step (by simp) fun s => retains_addPendingCards _ _ s)
  intro _
  apply stepwise_bind (stepwise_adapt_am1_exact)
  intro _
  apply stepwise_bind (stepwise_adapt_am1_FastHeuristicV7)
  intro _
  apply stepwise_read
  intro s
  apply stepwise_ite (stepwise_pure _)
  apply stepwise_ite
  · apply stepwise_bind (stepwise_solverSolve _)
    intro satisfiable
    apply stepwise_ite
    · apply stepwise_bind stepwise_bound
      exact fun _ => stepwise_pure _
    · exact stepwise_pure _
  · apply stepwise_bind (stepwise_harden _)
    rintro ⟨nbHarden, assum⟩
    apply stepwise_ite (stepwise_pure _)
    apply stepwise_bind (stepwise_adapt_am1_VeryFastHeuristic)
    intro found
    apply stepwise_read
    intro s
    apply stepwise_ite <;> exact stepwise_pure _

theorem stepwise_solve : Stepwise StoresOrRetains (solve env) := by
  have stops : ∀ b : Bool, Stepwise StoresOrRetains
      (.act .stop (fun s : EvalMaxSAT K => ((), s.stopped)) >>= fun _ => pure b : Program K Bool) := by
    intro b
    apply stepwise_bind (stepwise_step (by simp) fun s => retains_of_eq rfl rfl)
    exact fun _ => stepwise_pure _
  apply stepwise_bind (stepwise_step (by simp) fun s => retains_of_eq rfl rfl)
  intro _
  apply stepwise_bind stepwise_prologue
  intro early
  cases early with
  | some b => exact stepwise_bind (stepwise_pure _) stops
  | none => exact stepwise_bind stepwise_mainLoop stops

end EvalMaxSat
