import EvalMaxSat.Cliques

/-!
What each kind of step of `solve` may do to the state, and the rules for the calls of the
back end.
-/
namespace EvalMaxSat
open Literals OrderedContainers LawfulSink EvalMaxSAT StepProgram

variable {K : Type} {env : Env K} {lo : Option LocalOptimizer2} {s t u : EvalMaxSAT K}

structure Sane (s : EvalMaxSAT K) : Prop where
  wf : Wf s.litToRelax s
  word : s.cost < 2 ^ 64

def EvalMaxSAT.answered (s : EvalMaxSAT K) (core : K) (last : Answer) : EvalMaxSAT K :=
  { s with solver := { s.solver with core := core, last := last } }

def Asked (s t : EvalMaxSAT K) : Prop := ∃ core last, t = s.answered core last

/-- A model good enough to be stored with the cost `c`: all it owes is `c`, or the local
optimizer has counted it. -/
structure Improves (lo : Option LocalOptimizer2) (s : EvalMaxSAT K) (c : Nat) (sol : List Bool) :
    Prop where
  lower : c < s.solutionCost
  models : Models (assignment sol) s.solver.clauses
  counted : (c = s.cost ∧ s.owed (falsified (assignment sol)) = 0) ∨
    ∃ l, lo = some l ∧ c = l.calculateCostAssign sol

/-- A soft literal heavy enough that falsifying it costs more than the solution does. -/
def Hardens (s t : EvalMaxSAT K) : Prop :=
  s.isIncremental = false ∧ ∃ lit, 0 < s.weight lit ∧
    (u64 ((s.solutionCost : Int) - s.cost) : Int) ≤ s.weight lit ∧ UnitSpec s.litToRelax lit s t

/-- Cardinalities move on, and new ones come from those that were pending. -/
def Settles (s t : EvalMaxSAT K) : Prop :=
  ∃ n, Climbs n s t ∧ t.cardToAdd.length + n ≤ s.cardToAdd.length

/-- What a step between the first and the last of a solve does. -/
def Effect (lo : Option LocalOptimizer2) : StepKind → EvalMaxSAT K → EvalMaxSAT K → Prop
  | .start, _, _ => False
  | .stop, _, _ => False
  | .query, s, t => Asked s t
  | .dropBucket, s, t => ∃ m, t = { s with mapWeight2Assum := m }
  | .bound, s, t => ∃ c sol, t = { s with solutionCost := c, solution := sol } ∧
      Improves lo s c sol
  | .harden, s, t => Hardens s t
  | .relax, s, t => Rewrites 0 s t ∧ Settles s t
  | .card, s, t => Rewrites 0 s t ∧ Settles s t
  | .unit, s, t => ∃ d, Rewrites d s t ∧ Settles s t
  | .core, s, t => lo.isSome ∧ ∃ d, 0 < d ∧ Rewrites d s t ∧ Climbs 0 s t
  | .amo, s, t => ∃ d, 0 < d ∧ Rewrites d s t ∧ Settles s t
  | .clique clause, s, t => t = s ∧ clause.Nodup ∧ (∀ l ∈ clause, 0 < s.weight l) ∧
      Exclusive s.solver.clauses clause
  | .assums minWeight assum, s, t => t = s ∧ 1 ≤ minWeight ∧ assum = (s.initAssum minWeight).elems
  | .report c, s, t => t = s ∧ ∃ sol, Improves lo s c sol

def StepOk (lo : Option LocalOptimizer2) (e : Event StepKind (EvalMaxSAT K)) : Prop :=
  Sane e.before ∧ Sane e.after ∧ Effect lo e.label e.before e.after

section Asked

theorem asked_refl (s : EvalMaxSAT K) : Asked s s := ⟨s.solver.core, s.solver.last, rfl⟩

theorem asked_answered (s : EvalMaxSAT K) (core : K) (last : Answer) :
    Asked s (s.answered core last) := ⟨core, last, rfl⟩

theorem asked_trans (first : Asked s t) (second : Asked t u) : Asked s u := by
  obtain ⟨_, _, rfl⟩ := first
  obtain ⟨core, last, rfl⟩ := second
  exact ⟨core, last, rfl⟩

theorem asked_weight (h : Asked s t) : t.weight = s.weight := by
  obtain ⟨_, _, rfl⟩ := h; rfl

theorem asked_clauses (h : Asked s t) : t.solver.clauses = s.solver.clauses := by
  obtain ⟨_, _, rfl⟩ := h; rfl

theorem asked_vars (h : Asked s t) : t.solver.nVar = s.solver.nVar := by
  obtain ⟨_, _, rfl⟩ := h; rfl

theorem asked_outside (h : Asked s t) : t.outside = s.outside := by
  obtain ⟨_, _, rfl⟩ := h; rfl

theorem asked_potential (h : Asked s t) : t.potential = s.potential := by
  obtain ⟨_, _, rfl⟩ := h; rfl

theorem asked_sane (h : Asked s t) (sane : Sane s) : Sane t := by
  obtain ⟨_, _, rfl⟩ := h
  exact ⟨wf_congr sane.wf rfl rfl rfl rfl rfl rfl rfl, sane.word⟩

theorem asked_stepOk (sane : Sane s) (h : Asked s t) : StepOk lo ⟨.query, s, t⟩ :=
  ⟨sane, asked_sane h sane, h⟩

end Asked

/-- What the parts of a solve that neither relax nor store a model do in all. -/
structure Passed (s t : EvalMaxSAT K) : Prop where
  sane : Sane t
  besides : t.besides = s.besides
  potential : t.potential ≤ s.potential
  clauses : s.solver.clauses ⊆ t.solver.clauses
  vars : s.solver.nVar ≤ t.solver.nVar

theorem passed_of_asked (sane : Sane s) (h : Asked s t) : Passed s t := by
  have sane' := asked_sane h sane
  obtain ⟨_, _, rfl⟩ := h
  exact ⟨sane', rfl, Nat.le_refl _, List.Subset.refl _, Nat.le_refl _⟩

theorem passed_trans (first : Passed s t) (second : Passed t u) : Passed s u where
  sane := second.sane
  besides := second.besides.trans first.besides
  potential := second.potential.trans first.potential
  clauses := List.Subset.trans first.clauses second.clauses
  vars := first.vars.trans second.vars

theorem passed_aside (h : Passed s t) : t.aside = s.aside := congrArg (fun o => o.2.2) h.besides

theorem passed_start (h : Passed s t) : t.startSolve = s.startSolve :=
  congrArg (fun o => o.1) (passed_aside h)

section BackEnd
variable {as : List Int} {lim : Limit} {E : Event StepKind (EvalMaxSAT K) → Prop}

/-- From `s` on, calls of the back end are steps that satisfy `E`. -/
def Free (E : Event StepKind (EvalMaxSAT K) → Prop) (s : EvalMaxSAT K) : Prop :=
  ∀ t u, Asked s t → Asked t u → E ⟨.query, t, u⟩

theorem free_stepOk (sane : Sane s) : Free (StepOk lo) s :=
  fun _ _ before after => asked_stepOk (asked_sane before sane) after

theorem free_every (s : EvalMaxSAT K) : Free (fun _ => True) s := fun _ _ _ _ => trivial

theorem free_asked (free : Free E s) (asked : Asked s t) : Free E t :=
  fun u v before after => free u v (asked_trans asked before) after

theorem wp_query {Q : Answer → EvalMaxSAT K → Prop} (free : Free E s)
    (post : ∀ core, Q (env.answer s.solver.core s.solver.clauses as lim).1
      (s.answered core (env.answer s.solver.core s.solver.clauses as lim).1)) :
    Wp E (query env as lim) Q s :=
  wp_act (free _ _ (asked_refl s) ⟨_, _, rfl⟩) (post _)

theorem wp_solverSolve {Q : Bool → EvalMaxSAT K → Prop} (sound : env.Sound) (free : Free E s)
    (yes : ∀ core model, Models (assignment model) s.solver.clauses →
      AllTrue (assignment model) as → Q true (s.answered core (.sat model)))
    (no : ∀ core failed, Inconsistent s.solver.clauses (as.filter (· ∈ failed)) →
      Q false (s.answered core (.unsat failed))) :
    Wp E (solverSolve env as) Q s := by
  apply wp_bind
  apply wp_query free
  intro core
  cases answer : (env.answer s.solver.core s.solver.clauses as .unlimited).1 with
  | sat model =>
    obtain ⟨models, all⟩ := sound.sat _ _ _ _ _ answer
    exact wp_pure (yes core model models all)
  | unsat failed => exact wp_pure (no core failed (sound.unsat _ _ _ _ _ answer))
  | unknown => exact absurd answer (sound.complete _ _ _)

theorem wp_solverSolveLimited {except : Int} {Q : Option Bool → EvalMaxSAT K → Prop}
    (sound : env.Sound) (free : Free E s)
    (yes : ∀ core model, Models (assignment model) s.solver.clauses →
      AllTrue (assignment model) (as.filter (· ≠ except)) →
      Q (some true) (s.answered core (.sat model)))
    (no : ∀ core failed,
      Inconsistent s.solver.clauses ((as.filter (· ≠ except)).filter (· ∈ failed)) →
      Q (some false) (s.answered core (.unsat failed)))
    (stop : ∀ core, Q none (s.answered core .unknown)) :
    Wp E (solverSolveLimited env as lim except) Q s := by
  apply wp_bind
  apply wp_query free
  intro core
  cases answer :
      (env.answer s.solver.core s.solver.clauses (as.filter (· ≠ except)) lim).1 with
  | sat model =>
    obtain ⟨models, all⟩ := sound.sat _ _ _ _ _ answer
    exact wp_pure (yes core model models all)
  | unsat failed => exact wp_pure (no core failed (sound.unsat _ _ _ _ _ answer))
  | unknown => exact wp_pure (stop core)

theorem wp_withCore {α : Type} {f : K → α × K} {Q : α → EvalMaxSAT K → Prop} (free : Free E s)
    (post : ∀ core, Q (f s.solver.core).1 (s.answered core s.solver.last)) :
    Wp E (withCore f) Q s :=
  wp_act (free _ _ (asked_refl s) ⟨_, s.solver.last, rfl⟩) (post _)

theorem wp_clock {Q : Bool → EvalMaxSAT K → Prop} (free : Free E s)
    (post : ∀ b core, Q b (s.answered core s.solver.last)) : Wp E (clock env) Q s :=
  wp_withCore free (post _)

structure Implied (f : Cnf) (as prop : List Int) : Prop where
  implied : ∀ l ∈ prop, Inconsistent f (-l :: as)
  nodup : prop.Nodup
  newly : ∀ l ∈ prop, l ≠ 0 ∧ l ∉ as ∧ -l ∉ as ∧ [l] ∉ f ∧ [-l] ∉ f

theorem wp_solverPropagate {Q : Option (List Int) → EvalMaxSAT K → Prop} (sound : env.Sound)
    (sane : Sane s)
    (fine : ∀ core prop, Implied s.solver.clauses as prop →
      Q (some prop) (s.answered core s.solver.last))
    (fails : ∀ core, Inconsistent s.solver.clauses as → Q none (s.answered core s.solver.last)) :
    Wp (StepOk lo) (solverPropagate env as) Q s := by
  apply wp_act (asked_stepOk sane ⟨_, s.solver.last, rfl⟩)
  simp only [Solver_cadical.propagate]
  cases result : (env.propagate s.solver.core s.solver.clauses as).1 with
  | some prop =>
    obtain ⟨nodup, newly⟩ := sound.newly _ _ _ _ result
    exact fine _ prop ⟨sound.implied _ _ _ _ result, nodup, newly⟩
  | none => exact fails _ (sound.failing _ _ _ result)

theorem assignment_pad (model : List Bool) (n : Nat) :
    assignment (model ++ List.replicate n false) = assignment model := by
  funext v
  simp only [assignment]
  by_cases inside : v < model.length
  · rw [List.getD_append _ _ _ _ inside]
  · rw [List.getD_append_right _ _ _ _ (Nat.le_of_not_lt inside),
      List.getD_eq_default _ _ (Nat.le_of_not_lt inside), List.getD_eq_getElem?_getD,
      List.getElem?_replicate]
    split <;> rfl

theorem getSolution_assignment {S : Solver_cadical K} {model : List Bool}
    (last : S.last = .sat model) : assignment S.getSolution = assignment model := by
  simp only [Solver_cadical.getSolution, last]
  exact assignment_pad model _

end BackEnd

section Units
variable {lit : Int}

/-- A literal that the clauses imply may be fixed: what is lost is paid. -/
theorem rewrites_unit {ws : List Int} (wf : Wf ws s) (implied : Inconsistent s.solver.clauses [-lit])
    (nonzero : lit ≠ 0) (nonpos : s.weight lit ≤ 0) (word : s.cost < 2 ^ 64)
    (unit : UnitSpec ws lit s t) : Rewrites (s.weight lit).natAbs s t := by
  have always : ∀ m, Models m s.solver.clauses → litTrue m lit = true := by
    intro m models
    cases value : litTrue m lit with
    | true => rfl
    | false =>
      exfalso
      apply implied m models
      intro l mem
      simp only [List.mem_singleton] at mem
      rw [mem, litTrue_neg nonzero, value]; rfl
  have same : ∀ m, Models m s.solver.clauses →
      s.unitCharge lit (falsified m) = (s.weight lit).natAbs := by
    intro m models
    rw [unitCharge_true wf (always m models)]
    omega
  refine ⟨⟨unit.sim.vars, unit.sim.clauses, unit.sim.plain, ?_, ?_, ?_⟩, ?_, ?_⟩
  · rw [← unitCharge_every]; exact unit.sim.potential
  · intro m models canonical _
    obtain ⟨k, agree, models', canonical', owed⟩ :=
      unit.sim.forward m models canonical (holds_unit.mpr (always m models))
    rw [same m models] at owed
    exact ⟨k, agree, models', canonical', owed⟩
  · intro m models
    have := unit.sim.backward m models
    rwa [same m (fun c mem => models c (unit.sim.clauses mem))] at this
  · rw [unit.cost]
    split
    · congr 1; omega
    · have : s.weight lit = 0 := by omega
      rw [this, Int.natAbs_zero, Nat.cast_zero, Int.add_zero, u64_of_nat word]
  · exact congrArg (fun o => o.2.2) unit.besides

theorem word_rewrites {d : Nat} (h : Rewrites d s t) : t.cost < 2 ^ 64 := by
  rw [h.cost]; exact u64_lt _

theorem passed_of_rewrites {d : Nat} (wf : Wf s.litToRelax t) (h : Rewrites d s t)
    (besides : t.besides = s.besides) : Passed s t where
  sane := ⟨by rw [show t.litToRelax = s.litToRelax from congrArg Prod.fst besides]; exact wf,
    word_rewrites h⟩
  besides := besides
  potential := by have := h.sim.potential; omega
  clauses := h.sim.clauses
  vars := h.sim.vars

theorem settles_of_besides (climbs : Climbs 0 s t) (besides : t.besides = s.besides) :
    Settles s t :=
  ⟨0, climbs, Nat.le_of_eq (congrArg List.length (congrArg (fun o => o.2.1) besides))⟩

theorem wp_refuted {Q : Unit → EvalMaxSAT K → Prop} (sane : Sane s)
    (refuted : Inconsistent s.solver.clauses [lit]) (soft : 0 < s.weight lit)
    (post : ∀ t, UnitSpec s.litToRelax (-lit) s t → Passed s t → t.potential < s.potential →
      Q () t) : Wp (StepOk lo) (addUnit .unit (-lit)) Q s := by
  obtain ⟨nonzero, bound⟩ := sane.wf.weighted_inside (by omega : s.weight lit ≠ 0)
  have opposite := sane.wf.weight_neg lit
  have unit := addUnit_spec sane.wf (by omega : -lit ≠ 0) (by rw [Int.natAbs_neg]; exact bound)
  have rewrites := rewrites_unit sane.wf (by rw [neg_neg]; exact refuted) (by omega) (by omega)
    sane.word unit
  have passed := passed_of_rewrites unit.wf rewrites unit.besides
  refine wp_act ⟨sane, passed.sane, _, rewrites, settles_of_besides unit.climbs unit.besides⟩
    (post (s.addHardClause [-lit]) unit passed ?_)
  have := rewrites.sim.potential
  omega

end Units
/-- Whether a program ends within `fuel` from `s` and passes a test. -/
def endTest {α : Type} (m : Program K α) (fuel : Nat)
    (test : List (Event StepKind (EvalMaxSAT K)) → α → EvalMaxSAT K → Bool)
    (s : EvalMaxSAT K) : Bool :=
  match m.run fuel s with
  | (tr, .done b, t) => test tr b t
  | _ => false

theorem ends_of_endTest {α : Type} {m : Program K α} {fuel : Nat}
    {test : List (Event StepKind (EvalMaxSAT K)) → α → EvalMaxSAT K → Bool} {s : EvalMaxSAT K}
    (passes : endTest m fuel test s = true) :
    ∃ tr b t, m.Ends s tr (.done b) t ∧ test tr b t = true := by
  rw [endTest] at passes
  split at passes
  · rename_i tr b t run
    exact ⟨tr, b, t, ⟨trivial, fuel, run⟩, passes⟩
  · simp at passes

end EvalMaxSat
