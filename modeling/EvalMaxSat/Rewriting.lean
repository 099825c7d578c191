import EvalMaxSat.Disciplines

/-!
`processAtMostOne` as a whole: it ends, and it leaves the objective as it was.
-/
namespace EvalMaxSat
open Literals OrderedContainers EvalMaxSAT StepProgram

variable {K : Type} {env : Env K} {core : K} {s t u : EvalMaxSAT K} {m : Assignment}

section Law

/-- A state in the middle of a solve, whose cost has room for all that is owed. -/
structure Solving (s : EvalMaxSAT K) : Prop where
  sane : Sane s
  start : s.startSolve = true
  room : s.cost + s.potential < 2 ^ 64

/-- From `s` to `t` a cardinality moved on to the output `v`. -/
def Activated (s t : EvalMaxSAT K) (v : Nat) : Prop :=
  ∃ (c : Nat) (o p : CardObject), s.cards[c]? = some o ∧ t.cards[c]? = some p ∧
    o.level < p.level ∧ p.card.output p.level = some (v : Int)

/-- What the rewriting of the literals `c` does, where `φ` says for which models the objective
can be kept. -/
structure KeepsObjective (φ : Assignment → Prop) (c : Clause) (s : EvalMaxSAT K)
    (newAssum : List Int) (t : EvalMaxSAT K) : Prop where
  least : ∀ m, Models m s.solver.clauses → φ m →
    LeastOver (· ≤ s.solver.nVar) t.solver.clauses t.objective m (s.objective m)
  nodup : newAssum.Nodup
  soft : ∀ l ∈ newAssum, 0 < t.weight l
  fewer : newAssum.length ≤ c.length
  elsewhere : ∀ l : Int, l ∉ c → -l ∉ c → l.natAbs ≤ s.solver.nVar →
    t.weight l = s.weight l ∨ Activated s t l.natAbs

theorem objective_rewrites {p : Nat} (room : s.cost + s.potential < 2 ^ 64) (h : Rewrites p s t)
    (m : Assignment) : t.objective m = s.cost + p + t.owed (falsified m) := by
  have paid := h.sim.potential
  rw [EvalMaxSAT.objective, h.cost, ← Nat.cast_add, u64_of_nat (by omega)]

theorem objective_below {p : Nat} {k : Assignment} (sane : Sane s)
    (room : s.cost + s.potential < 2 ^ 64) (h : Rewrites p s t) (agree : AgreeUpTo s.solver.nVar m k)
    (models : Models k t.solver.clauses) : s.objective m ≤ t.objective k := by
  have least := h.sim.backward k models
  rw [objective_rewrites room h, EvalMaxSAT.objective, ← owed_agree sane.wf agree]
  omega

theorem least_rewrites {p : Nat} (sane : Sane s) (room : s.cost + s.potential < 2 ^ 64)
    (h : Rewrites p s t) (models : Models m s.solver.clauses) (canonical : s.Canonical m) :
    LeastOver (· ≤ s.solver.nVar) t.solver.clauses t.objective m (s.objective m) := by
  constructor
  · obtain ⟨k, agree, models', _, owed⟩ := h.sim.forward m models canonical trivial
    refine ⟨k, agree, models', ?_⟩
    rw [objective_rewrites room h, EvalMaxSAT.objective]
    omega
  · rintro x ⟨k, agree, models', rfl⟩
    exact objective_below sane room h agree models'

theorem activated_of_climbs (wf : Wf s.litToRelax s) (wf' : Wf t.litToRelax t) (climbs : Climbs 0 s t)
    (steady : Steady s t) (plain : ∀ v ≤ s.solver.nVar, t.Plain v ↔ s.Plain v) {l : Int}
    (bound : l.natAbs ≤ s.solver.nVar) (unweighted : s.weight l = 0) (weighted : t.weight l ≠ 0) :
    Activated s t l.natAbs := by
  have opposite := wf'.weight_neg l
  by_cases outside : s.Plain l.natAbs
  · have plainT := (plain _ bound).mpr outside
    have up := steady l bound plainT (by omega)
    have down := steady (-l) (by rw [Int.natAbs_neg]; exact bound) (by rw [Int.natAbs_neg]; exact plainT)
      (by rw [wf.weight_neg]; omega)
    omega
  · simp only [EvalMaxSAT.Plain, not_forall, not_not] at outside
    obtain ⟨c, o, k, cell, made⟩ := outside
    obtain ⟨p, cellP, climbed⟩ := climbs.old c o cell
    have made' := climbed.outputs k _ made
    have same : t.weight (l.natAbs : Int) = t.weight l ∨ t.weight (l.natAbs : Int) = -t.weight l := by
      rcases Int.natAbs_eq l with eq | eq
      · exact Or.inl (congrArg t.weight eq.symm)
      · exact Or.inr (by rw [← opposite]; exact congrArg t.weight (by omega))
    obtain ⟨nonpos, atLevel⟩ := (wf'.cards c p cellP).outputs k _ made'
    obtain ⟨level, _⟩ := atLevel (by omega)
    rw [level] at made'
    rcases climbed.level with ⟨eq, x, current, falls⟩ | ⟨eq, _⟩
    · rw [← eq, ← level, made] at current
      have var := Option.some.inj current
      rw [← var] at falls
      have before : s.weight (-(l.natAbs : Int)) = 0 := by
        rcases Int.natAbs_eq l with here | here
        · rw [← here, wf.weight_neg]; omega
        · rw [← here]; exact unweighted
      have := wf'.weight_neg (l.natAbs : Int)
      omega
    · exact ⟨c, o, p, cell, cellP, by omega, made'⟩

/-- The rewriting ends; the objective is never less than before, and for a model that counts
exactly its minimum is what it was. -/
theorem at_most_one_keeps_objective {c : Clause} (solving : Solving s) (nodup : c.Nodup)
    (soft : ∀ l ∈ c, 0 < s.weight l) (exclusive : Exclusive s.solver.clauses c) :
    ∃ tr newAssum t, (processAtMostOne c : Program K (List Int)).Ends s tr (.done newAssum) t ∧
      KeepsObjective s.Canonical c s newAssum t ∧
      ∀ m k, Models m s.solver.clauses → AgreeUpTo s.solver.nVar m k → Models k t.solver.clauses →
        s.objective m ≤ t.objective k := by
  have sane := solving.sane
  obtain ⟨tr, newAssum, t, ends, _, processed, _⟩ :=
    @wp_processAtMostOne _ none _ _ sane solving.start nodup soft exclusive
  obtain ⟨p, rewrites⟩ := processed.rewrites
  refine ⟨tr, newAssum, t, ends, ⟨fun m models canonical =>
    least_rewrites sane solving.room rewrites models canonical, processed.nodup, processed.soft,
    processed.fewer, fun l notIn notNeg bound => ?_⟩, fun m k _ agree models =>
    objective_below sane solving.room rewrites agree models⟩
  by_cases same : t.weight l = s.weight l
  · exact Or.inl same
  · have unweighted : s.weight l = 0 := by
      by_contra weighted
      exact same (processed.kept l notIn notNeg weighted)
    exact Or.inr (activated_of_climbs sane.wf processed.passed.sane.wf processed.climbs
      processed.steady processed.plain bound unweighted (by rw [unweighted] at same; exact same))

end Law

section Loose

/-- A core over three variables, and later a variable that needs two of them. -/
def looseScript : List Call :=
  [.update (.setIncremental true), .update .newVar, .update .newVar, .update .newVar, .update .newVar,
    .update (.addClause [-1] (some 1)), .update (.addClause [-2] (some 1)),
    .update (.addClause [-3] (some 1)), .update (.addClause [1, 2, 3] none), .solve,
    .update (.addClause [-4, 1] none), .update (.addClause [-4, 2] none),
    .update (.addClause [4] (some 1)), .solve]

def looseModel (b c : Bool) : Assignment := fun v =>
  if v = 8 then b else if v = 9 then c else decide (v = 3 ∨ v = 5 ∨ v = 6)

def looseTest (t : EvalMaxSAT Unit) : Bool :=
  decide (t.startSolve = true ∧ t.solver.nVar = 7 ∧ 0 < t.weight (-5) ∧ 0 < t.weight 4 ∧
    t.cost + t.potential < 2 ^ 64 ∧ (idleBackEnd.answer () t.solver.clauses [-5, 4] .unlimited).1 =
      .unsat [-5, 4] ∧
    Models (looseModel false false) t.solver.clauses) &&
  endTest (processAtMostOne [-5, 4]) 60 (fun _ _ u => decide (u.solver.nVar = 9 ∧ ∀ b c,
    Models (looseModel b c) u.solver.clauses →
      u.objective (looseModel b c) ≠ t.objective (looseModel false false))) t

theorem looseScript_visits : ∃ t : EvalMaxSAT Unit, Sane t ∧ looseTest t = true := by
  obtain ⟨d, path, s, history, found⟩ := history_of_replay idleBackEnd () fittingCall 60 looseScript
    (fun r => r.2.1.any looseTest) (by decide +kernel)
  obtain ⟨t, visited, test⟩ := List.any_eq_true.mp found
  exact ⟨t, (history_between idle_sound history).2 t visited, test⟩

theorem looseTest_facts {t : EvalMaxSAT Unit} (sane : Sane t) (test : looseTest t = true) :
    Solving t ∧ (∀ l ∈ [-5, 4], 0 < t.weight l) ∧ Exclusive t.solver.clauses [-5, 4] := by
  simp only [looseTest, Bool.and_eq_true, decide_eq_true_eq] at test
  obtain ⟨⟨start, _, first, second, room, refuted, _⟩, _⟩ := test
  refine ⟨⟨sane, start, room⟩, ?_, exclusive_pair (idle_sound.unsat _ _ _ _ _ refuted)⟩
  intro l mem
  simp only [List.mem_cons, List.not_mem_nil, or_false] at mem
  rcases mem with rfl | rfl
  · exact first
  · exact second

theorem at_most_one_keeps_objective_pair : ∃ s : EvalMaxSAT Unit, ∃ tr newAssum t,
    (processAtMostOne [-5, 4] : Program Unit (List Int)).Ends s tr (.done newAssum) t ∧
      KeepsObjective s.Canonical [-5, 4] s newAssum t ∧
      ∀ m k, Models m s.solver.clauses → AgreeUpTo s.solver.nVar m k → Models k t.solver.clauses →
        s.objective m ≤ t.objective k := by
  obtain ⟨s, sane, test⟩ := looseScript_visits
  obtain ⟨solving, soft, exclusive⟩ := looseTest_facts sane test
  exact ⟨s, at_most_one_keeps_objective solving (by decide) soft exclusive⟩

/-- A model that overstates a part of a totalizer pays more once the next level has weight. -/
theorem loose_model_pays_more : ¬ ∀ (s : EvalMaxSAT Unit) (c : Clause), Solving s → c.Nodup →
    (∀ l ∈ c, 0 < s.weight l) → Exclusive s.solver.clauses c →
    ∃ tr newAssum t, (processAtMostOne c : Program Unit (List Int)).Ends s tr (.done newAssum) t ∧
      KeepsObjective (fun _ => True) c s newAssum t := by
  intro claim
  obtain ⟨s, sane, test⟩ := looseScript_visits
  obtain ⟨solving, soft, exclusive⟩ := looseTest_facts sane test
  obtain ⟨tr, newAssum, t, ends, keeps⟩ := claim s [-5, 4] solving (by decide) soft exclusive
  obtain ⟨_, _, _, ends', _, processed, _⟩ :=
    @wp_processAtMostOne _ none _ _ sane solving.start (by decide) soft exclusive
  obtain ⟨_, _, rfl⟩ := Prog.ends_unique ends ends'
  simp only [looseTest, Bool.and_eq_true, decide_eq_true_eq] at test
  obtain ⟨⟨_, vars, _, _, _, _, models⟩, run⟩ := test
  obtain ⟨_, _, _, ends'', found⟩ := ends_of_endTest run
  obtain ⟨_, _, rfl⟩ := Prog.ends_unique ends ends''
  obtain ⟨varsT, differs⟩ := of_decide_eq_true found
  obtain ⟨⟨k, agree, modelsK, same⟩, _⟩ := keeps.least _ models trivial
  have wf := processed.passed.sane.wf
  -- the two new variables are all that the rewritten model may choose
  have chosen : AgreeUpTo t.solver.nVar (looseModel (k 8) (k 9)) k := by
    intro v bound
    rw [varsT] at bound
    rw [looseModel]
    split
    · rename_i eight; rw [eight]
    · split
      · rename_i nine; rw [nine]
      · have old := agree v (by rw [vars]; omega)
        rw [old, looseModel, if_neg ‹_›, if_neg ‹_›]
  refine differs (k 8) (k 9) ((models_agree chosen wf.within).mp modelsK) ?_
  rw [← same, EvalMaxSAT.objective, EvalMaxSAT.objective, owed_agree wf chosen]

end Loose
end EvalMaxSat
