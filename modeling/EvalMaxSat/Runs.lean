import EvalMaxSat.Rounds

/-!
`solve` as a whole: it returns, and its run falls into the part before the local optimizer
gets the weights, and the main loop.
-/
namespace EvalMaxSat
open Literals OrderedContainers LawfulSink EvalMaxSAT StepProgram

variable {K : Type} {env : Env K} {s t u v : EvalMaxSAT K} {b : Bool}

abbrev Trace (K : Type) := List (Event StepKind (EvalMaxSAT K))

/-- The run of a `solve` that returns `b`, from `s`. The local optimizer is built in `t`, and
`v` is the state at the end. -/
structure Phases (env : Env K) (s t v : EvalMaxSAT K) (opening main : Trace K) (b : Bool) : Prop where
  first : Chain s.started opening t
  openingOk : ∀ e ∈ opening, StepOk none e
  second : Chain t main v
  mainOk : ∀ e ∈ main, StepOk (some ⟨t.poids, t.cost⟩) e
  verdict : Verdict b v
  built : main ≠ [] → (prologue env).Ends s.started opening (.done none) t ∧ t.cardToAdd = []

def Phases.trace (s v : EvalMaxSAT K) (opening main : Trace K) : Trace K :=
  ⟨.start, s, s.started⟩ :: (opening ++ (main ++ [⟨.stop, v, v.stopped⟩]))

theorem sane_started (sane : Sane s) : Sane s.started :=
  ⟨wf_congr sane.wf rfl rfl rfl rfl rfl rfl rfl, sane.word⟩

theorem sane_stopped (sane : Sane s) : Sane s.stopped :=
  ⟨wf_congr sane.wf rfl rfl rfl rfl rfl rfl rfl, sane.word⟩

theorem solve_phases (sound : env.Sound) (sane : Sane s) :
    ∃ t v opening main b, Phases env s t v opening main b ∧
      (solve env).Ends s (Phases.trace s v opening main) (.done b) v.stopped := by
  obtain ⟨opening, early, t, ends, openingOk, opened⟩ :=
    wp_prologue sound (sane_started sane) rfl rfl
  have first := Prog.ends_chain ends
  have start := Prog.ends_act (α := Unit) StepKind.start (fun s : EvalMaxSAT K => ((), s.started)) s
  have stop := fun (b : Bool) (v : EvalMaxSAT K) =>
    Prog.ends_bind (k := fun _ => (pure b : Program K Bool))
      (Prog.ends_act (α := Unit) StepKind.stop (fun s : EvalMaxSAT K => ((), s.stopped)) v)
      (Prog.ends_pure b v.stopped)
  cases early with
  | some b =>
    refine ⟨t, t, opening, [], b, ⟨first, openingOk, rfl, by simp, opened, fun main => absurd rfl main⟩, ?_⟩
    exact Prog.ends_bind start (Prog.ends_bind ends
      (Prog.ends_bind (Prog.ends_pure b t) (stop b t)))
  | none =>
    obtain ⟨saneT, started, relaxed, added⟩ := opened
    obtain ⟨main, b, v, ends', mainOk, verdict⟩ := wp_mainLoop sound saneT started relaxed added
    refine ⟨t, v, opening, main, b,
      ⟨first, openingOk, Prog.ends_chain ends', mainOk, verdict, fun _ => ⟨ends, added⟩⟩, ?_⟩
    exact Prog.ends_bind start (Prog.ends_bind ends (Prog.ends_bind ends' (stop b v)))

theorem phases_of_ends {tr : Trace K} {o : Outcome Bool} (sound : env.Sound) (sane : Sane s)
    (ends : (solve env).Ends s tr o u) : ∃ t v opening main b, Phases env s t v opening main b ∧
      tr = Phases.trace s v opening main ∧ o = .done b ∧ u = v.stopped := by
  obtain ⟨t, v, opening, main, b, phases, ends'⟩ := solve_phases sound sane
  obtain ⟨same_tr, same_o, same_u⟩ := Prog.ends_unique ends ends'
  exact ⟨t, v, opening, main, b, phases, same_tr, same_o, same_u⟩

section Steps
variable {lo : Option LocalOptimizer2} {e : Event StepKind (EvalMaxSAT K)}

/-- What every step of a solve keeps. -/
structure Stepped (s t : EvalMaxSAT K) : Prop where
  vars : s.solver.nVar ≤ t.solver.nVar
  clauses : s.solver.clauses ⊆ t.solver.clauses
  plain : ∀ v ≤ s.solver.nVar, t.Plain v ↔ s.Plain v
  potential : t.potential ≤ s.potential
  climbs : ∃ n, Climbs n s t

theorem stepped_refl (sane : Sane s) : Stepped s s :=
  ⟨Nat.le_refl _, List.Subset.refl _, fun _ _ => Iff.rfl, Nat.le_refl _, 0, climbs_refl sane.wf⟩

theorem stepped_of_sim {φ : Assignment → Prop} {less : Gauge → Nat} {n : Nat}
    (sim : SimOn φ less s t) (climbs : Climbs n s t) : Stepped s t :=
  ⟨sim.vars, sim.clauses, sim.plain, by have := sim.potential; omega, n, climbs⟩

theorem stepped_of_effect {kind : StepKind} (sane : Sane s) (effect : Effect lo kind s t) :
    Stepped s t := by
  have still := stepped_refl sane
  have climbs : ∀ {u : EvalMaxSAT K}, u.solver.nVar = s.solver.nVar → u.poids = s.poids →
      u.cards = s.cards → ∃ n, Climbs n s u := fun vars poids cards =>
    ⟨0, climbs_congr (climbs_refl sane.wf) rfl rfl rfl vars
      (by unfold EvalMaxSAT.weight; rw [poids]) cards⟩
  cases kind with
  | start => exact effect.elim
  | stop => exact effect.elim
  | query =>
    obtain ⟨core, last, rfl⟩ := effect
    exact ⟨still.vars, still.clauses, still.plain, still.potential, climbs rfl rfl rfl⟩
  | dropBucket =>
    obtain ⟨m, rfl⟩ := effect
    exact ⟨still.vars, still.clauses, still.plain, still.potential, climbs rfl rfl rfl⟩
  | bound =>
    obtain ⟨c, sol, rfl, _⟩ := effect
    exact ⟨still.vars, still.clauses, still.plain, still.potential, climbs rfl rfl rfl⟩
  | harden =>
    obtain ⟨_, lit, _, _, unit⟩ := effect
    exact stepped_of_sim unit.sim unit.climbs
  | relax =>
    obtain ⟨rewrites, n, climbs, _⟩ := effect
    exact stepped_of_sim rewrites.sim climbs
  | card =>
    obtain ⟨rewrites, n, climbs, _⟩ := effect
    exact stepped_of_sim rewrites.sim climbs
  | unit =>
    obtain ⟨_, rewrites, n, climbs, _⟩ := effect
    exact stepped_of_sim rewrites.sim climbs
  | core =>
    obtain ⟨_, _, _, rewrites, climbs⟩ := effect
    exact stepped_of_sim rewrites.sim climbs
  | amo =>
    obtain ⟨_, _, rewrites, n, climbs, _⟩ := effect
    exact stepped_of_sim rewrites.sim climbs
  | clique clause => rw [show t = s from effect.1]; exact still
  | assums minWeight assum => rw [show t = s from effect.1]; exact still
  | report c => rw [show t = s from effect.1]; exact still

inductive SolveStep : Event StepKind (EvalMaxSAT K) → Prop
  | enter {s : EvalMaxSAT K} : Sane s → s.startSolve = false → SolveStep ⟨.start, s, s.started⟩
  | leave {s : EvalMaxSAT K} : Sane s → SolveStep ⟨.stop, s, s.stopped⟩
  | inside {lo : Option LocalOptimizer2} {e : Event StepKind (EvalMaxSAT K)} :
      StepOk lo e → SolveStep e

theorem solveStep_sane (step : SolveStep e) : Sane e.before ∧ Sane e.after := by
  cases step with
  | enter sane _ => exact ⟨sane, sane_started sane⟩
  | leave sane => exact ⟨sane, sane_stopped sane⟩
  | inside ok => exact ⟨ok.1, ok.2.1⟩

theorem stepped_of_solveStep (step : SolveStep e) : Stepped e.before e.after := by
  cases step with
  | enter sane _ =>
    exact ⟨Nat.le_refl _, List.Subset.refl _, fun _ _ => Iff.rfl, Nat.le_refl _, 0,
      climbs_congr (climbs_refl sane.wf) rfl rfl rfl rfl rfl rfl⟩
  | leave sane =>
    exact ⟨Nat.le_refl _, List.Subset.refl _, fun _ _ => Iff.rfl, Nat.le_refl _, 0,
      climbs_congr (climbs_refl sane.wf) rfl rfl rfl rfl rfl rfl⟩
  | inside ok => exact stepped_of_effect ok.1 ok.2.2

end Steps

section Traces

theorem chain_sane {tr : Trace K} {lo : Option LocalOptimizer2} (sane : Sane s) (path : Chain s tr t)
    (ok : ∀ e ∈ tr, StepOk lo e) : Sane t :=
  (chain_invariant Sane path sane fun e mem _ => (ok e mem).2.1).1

theorem trace_steps {opening main : Trace K} (sane : Sane s) (idle : s.startSolve = false)
    (phases : Phases env s t v opening main b) :
    Chain s (Phases.trace s v opening main) v.stopped ∧
      ∀ e ∈ Phases.trace s v opening main, SolveStep e := by
  have saneV := chain_sane (chain_sane (sane_started sane) phases.first phases.openingOk)
    phases.second phases.mainOk
  refine ⟨⟨rfl, chain_append phases.first (chain_append phases.second ⟨rfl, rfl⟩)⟩, ?_⟩
  intro e mem
  rcases List.mem_cons.mp mem with rfl | mem
  · exact .enter sane idle
  · rcases List.mem_append.mp mem with mem | mem
    · exact .inside (phases.openingOk e mem)
    · rcases List.mem_append.mp mem with mem | mem
      · exact .inside (phases.mainOk e mem)
      · rw [List.mem_singleton.mp mem]
        exact .leave saneV

theorem steps_of_ends {tr : Trace K} {o : Outcome Bool} (sound : env.Sound) (sane : Sane s)
    (idle : s.startSolve = false) (ends : (solve env).Ends s tr o u) : (∃ b, o = .done b) ∧ Chain s tr u ∧
      (∀ e ∈ tr, SolveStep e) ∧ Sane u ∧ u.startSolve = false := by
  obtain ⟨t, v, opening, main, b, phases, rfl, rfl, rfl⟩ := phases_of_ends sound sane ends
  obtain ⟨path, ok⟩ := trace_steps sane idle phases
  refine ⟨⟨b, rfl⟩, path, ok, ?_, rfl⟩
  exact (chain_invariant Sane path sane fun e mem _ => (solveStep_sane (ok e mem)).2).1

end Traces

end EvalMaxSat
