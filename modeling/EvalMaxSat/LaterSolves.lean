import EvalMaxSat.Disciplines
import EvalMaxSat.FirstSolves

/-!
Solves after other solves: in the incremental mode the objective stays that of the formula, and a
solve is right where neither an old unit nor an old cardinality misleads it.
-/
namespace EvalMaxSat
open Literals OrderedContainers EvalMaxSAT StepProgram

variable {K : Type} {env : Env K} {core : K} {s t : EvalMaxSAT K} {d : Story}
  {path : List (EvalMaxSAT K)}

section Preservation

/-- The clauses and the objective of `s` are those of the formula, seen from its variables. -/
structure Represents (d : Story) (s : EvalMaxSAT K) : Prop where
  hard : ∀ a, Models a d.hard ↔
    ∃ m : Assignment, (∀ v ∈ d.vars, m v = a v) ∧ Models m s.solver.clauses
  least : ∀ a, Models a d.hard →
    LeastOver (· ∈ d.vars) s.solver.clauses s.objective a (d.softCost a)

theorem represents_of_faithful (closed : d.Closed) (h : Faithful d Every s) : Represents d s where
  hard := by
    intro a
    constructor
    · intro models
      obtain ⟨m, agree, models', _⟩ := h.complete a models trivial
      exact ⟨m, agree, models'⟩
    · rintro ⟨m, agree, models⟩
      exact (Story.hard_over closed agree).mp (h.sound m models).1
  least := by
    intro a models
    constructor
    · obtain ⟨m, agree, models', _, eq⟩ := h.complete a models trivial
      exact ⟨m, agree, models', eq⟩
    · rintro x ⟨m, agree, models', rfl⟩
      rw [← Story.softCost_over closed agree]
      exact (h.sound m models').2

/-- The calls of the incremental mode that make no weight overflow. -/
def fittingIncrementalCall (d : Story) (s : EvalMaxSAT K) : Call → Prop
  | .update u => d.Builds u ∧ u.Fits s
  | .solve => s.isIncremental = true

instance (d : Story) (s : EvalMaxSAT K) : (c : Call) → Decidable (fittingIncrementalCall d s c)
  | .update u => inferInstanceAs (Decidable (d.Builds u ∧ u.Fits s))
  | .solve => inferInstanceAs (Decidable (s.isIncremental = true))

theorem incremental_steady (sound : env.Sound)
    (h : History env core fittingIncrementalCall d path s) (room : d.total < 2 ^ 64) :
    History env core (steadyCall env) d path s := by
  induction h with
  | fresh => exact .fresh
  | update _ allowed applied ih =>
    rw [Story.total_record] at room
    exact .update (ih (by omega)) allowed applied
  | solve _ allowed ends ih =>
    have described := history_described sound (ih room) room
    exact .solve (ih room) (unhardened_of_incremental sound described.between allowed) ends

/-- In the incremental mode the objective is that of the formula, between the calls and between
the steps of a solve. -/
theorem incremental_objective (sound : env.Sound)
    (h : History env core fittingIncrementalCall d path s) (room : d.total < 2 ^ 64) :
    Represents d s ∧ (s.isIncremental = true → ∃ tr b t, (solve env).Ends s tr (.done b) t ∧
      ∀ e ∈ tr, Represents d e.before ∧ Represents d e.after) := by
  have described := history_described sound (incremental_steady sound h room) room
  refine ⟨represents_of_faithful described.closed described.faithful, fun mode => ?_⟩
  obtain ⟨t, v, opening, main, b, _, ends⟩ := solve_phases sound described.between.sane
  obtain ⟨_, during⟩ := faithful_ends sound described.between ends
    (unhardened_of_incremental sound described.between mode _ _ _ ends) room described.budget
    described.faithful
  exact ⟨_, b, _, ends, fun e mem =>
    ⟨represents_of_faithful described.closed (during e mem).1,
      represents_of_faithful described.closed (during e mem).2⟩⟩

/-- A core of three soft literals, and then clauses that falsify one of them and keep another. -/
def tripleScript : List Call :=
  [.update (.setIncremental true), .update .newVar, .update .newVar, .update .newVar,
    .update (.addClause [-1, -2, -3] none), .update (.addClause [1] (some 1)),
    .update (.addClause [2] (some 1)), .update (.addClause [3] (some 1)), .solve,
    .update (.addClause [-2] none), .update (.addClause [1, 3] none)]

theorem incremental_objective_triple : ∃ d, ∃ s : EvalMaxSAT Unit, s.cards.length = 1 ∧
    Represents d s ∧ ∃ tr b t, (solve idleBackEnd).Ends s tr (.done b) t ∧
      ∀ e ∈ tr, Represents d e.before ∧ Represents d e.after := by
  obtain ⟨d, path, s, history, facts⟩ := history_of_replay idleBackEnd () fittingIncrementalCall 60
    tripleScript (fun r => decide (r.1.total < 2 ^ 64 ∧ r.2.2.isIncremental = true ∧
      r.2.2.cards.length = 1)) (by decide +kernel)
  obtain ⟨room, mode, cards⟩ := of_decide_eq_true facts
  obtain ⟨now, next⟩ := incremental_objective idle_sound history room
  exact ⟨d, s, cards, now, next mode⟩

/-- A constant part too large for the word of the cost. -/
def constantScript : List Call :=
  [.update (.setIncremental true), .update (.addClause [] (some (2 ^ 63 - 1))),
    .update (.addClause [] (some (2 ^ 63 - 1))), .update (.addClause [] (some (2 ^ 63 - 1)))]

theorem wrapped_cost_misrepresents : ¬ ∀ (env : Env Unit) (d : Story)
    (path : List (EvalMaxSAT Unit)) (s : EvalMaxSAT Unit), env.Sound →
    History env () incrementalCall d path s → Represents d s := by
  intro claim
  obtain ⟨d, path, s, history, facts⟩ := history_of_replay referenceBackEnd () incrementalCall 1
    constantScript (fun r => decide (r.1.hard = [] ∧ r.1.soft = [([], 2 ^ 63 - 1), ([], 2 ^ 63 - 1),
      ([], 2 ^ 63 - 1)] ∧ r.2.2.cost = 2 ^ 63 - 3 ∧ r.2.2.poids.weight = [0] ∧
      r.2.2.cardToAdd = [] ∧ r.2.2.cards = [])) (by decide +kernel)
  dsimp only at facts
  obtain ⟨hard, soft, cost, weights, pending, cards⟩ := of_decide_eq_true facts
  let a : Assignment := fun _ => false
  obtain ⟨⟨m, _, _, eq⟩, _⟩ := (claim _ d path s reference_sound history).least a
    (by simp [hard, Models])
  have owed : s.owed (falsified m) = 0 := by
    simp [EvalMaxSAT.owed, softSum, pendingSum, cardSum, pending, cards, WeightVector.size, weights]
  rw [EvalMaxSAT.objective, owed, cost, Story.softCost, soft] at eq
  exact absurd eq (by decide)

end Preservation

section Levels

/-- Each time the local optimizer gives a bound in the solve from `s`, the model that it counted
exceeds no cardinality that was there when it was built. -/
def Levelled (env : Env K) (s : EvalMaxSAT K) : Prop :=
  ∀ opening t, (prologue env).Ends s.started opening (.done none) t →
    ∀ tr o u, (solve env).Ends s tr o u → ∀ e ∈ tr, e.label = .bound →
      ExactBound e.before e.after ∨ ¬ Exceeds (assignment e.after.solution) t

theorem described_solve (sound : env.Sound) (described : Described d s) (small : d.total < 2 ^ 63)
    (levelled : Levelled env s) : ∃ tr b t, (solve env).Ends s tr (.done b) t ∧ Optimal d b t ∧
      ∀ e ∈ tr, Stored d e.after := by
  obtain ⟨t, v, opening, main, b, phases, ends⟩ := solve_phases sound described.between.sane
  obtain ⟨optimal, kept⟩ := solve_kept small described.between.sane phases described.faithful
    described.budget fun e mem bound =>
      levelled opening t (phases.built (List.ne_nil_of_mem mem)).1 _ _ _ ends e
        (List.mem_cons_of_mem _ (List.mem_append_right _ (List.mem_append_left _ mem))) bound
  exact ⟨_, b, _, ends, optimal, fun e mem => (kept e mem).stored⟩

section Tests
variable (t : EvalMaxSAT K) (e : Event StepKind (EvalMaxSAT K))

instance (m : Assignment) : Decidable (Exceeds m t) :=
  inferInstanceAs (Decidable (∃ o ∈ t.cards, o.level + 1 < trueCount m o.card.inputs))

instance : Decidable (ExactBound s t) := inferInstanceAs (Decidable (_ ∧ _))

def LevelledStep : Prop := e.label = .bound →
  ExactBound e.before e.after ∨ ¬ Exceeds (assignment e.after.solution) t

instance : Decidable (LevelledStep t e) := inferInstanceAs (Decidable (_ → _))

def levelledTest (env : Env K) (fuel : Nat) (s : EvalMaxSAT K) : Bool :=
  endTest (prologue env) fuel (fun _ early t => early.isSome || endTest (solve env) fuel
    (fun tr _ _ => tr.all fun e => decide (LevelledStep t e)) s) s.started

end Tests

theorem levelled_of_test {fuel : Nat} (passes : levelledTest env fuel s = true) : Levelled env s := by
  intro opening t ends tr o u ends' e mem bound
  obtain ⟨_, early, _, first, rest⟩ := ends_of_endTest passes
  obtain ⟨_, same, rfl⟩ := Prog.ends_unique first ends
  rw [Outcome.done.injEq] at same
  rw [same, Option.isSome_none, Bool.false_or] at rest
  obtain ⟨_, _, _, second, all⟩ := ends_of_endTest rest
  obtain ⟨rfl, _, rfl⟩ := Prog.ends_unique second ends'
  exact of_decide_eq_true (List.all_eq_true.mp all e mem) bound

end Levels

section Incremental

theorem history_incremental (sound : env.Sound) (h : History env core incrementalCall d path s)
    (small : d.total < 2 ^ 63) : Described d s := by
  have steady := history_steady sound (fun _ _ _ builds => builds)
    (fun _ _ between mode => unhardened_of_incremental sound between mode) h small
  exact history_described sound (history_mono (fun _ _ _ both => both.2) steady) (by omega)

/-- In the incremental mode a solve is optimal, and so is the worth of all that it stores, if no
old cardinality misleads the local optimizer. -/
theorem incremental_solve_optimal (sound : env.Sound) (h : History env core incrementalCall d path s)
    (small : d.total < 2 ^ 63) (levelled : Levelled env s) :
    ∃ tr b t, (solve env).Ends s tr (.done b) t ∧ Optimal d b t ∧ ∀ e ∈ tr, Stored d e.after :=
  described_solve sound (history_incremental sound h small) small levelled

theorem incremental_solve_optimal_triple : ∃ d, ∃ s : EvalMaxSAT Unit, s.cards.length = 1 ∧
    ∃ tr b t, (solve idleBackEnd).Ends s tr (.done b) t ∧ Optimal d b t ∧
      ∀ e ∈ tr, Stored d e.after := by
  obtain ⟨d, path, s, history, facts⟩ := history_of_replay idleBackEnd () incrementalCall 60
    tripleScript (fun r => decide (r.1.total < 2 ^ 63 ∧ r.2.2.cards.length = 1 ∧
      levelledTest idleBackEnd 60 r.2.2 = true)) (by decide +kernel)
  obtain ⟨small, cards, test⟩ := of_decide_eq_true facts
  exact ⟨d, s, cards, incremental_solve_optimal idle_sound history small (levelled_of_test test)⟩

/-- After a core of three soft literals all of them are falsified, and a heavier one too. -/
def exceedingScript : List Call :=
  [.update (.setIncremental true), .update .newVar, .update .newVar, .update .newVar, .update .newVar,
    .update (.addClause [-1, -2, -3] none), .update (.addClause [1] (some 1)),
    .update (.addClause [2] (some 1)), .update (.addClause [3] (some 1)), .solve,
    .update (.addClause [-1] none), .update (.addClause [-2] none), .update (.addClause [-3] none),
    .update (.addClause [-4] none), .update (.addClause [4] (some 10))]

/-- The bound is below what the solution stored with it costs. -/
theorem old_cardinality_misleads : ∃ d path s tr t,
    History idleBackEnd () incrementalCall d path s ∧ s.isIncremental = true ∧ d.total < 2 ^ 63 ∧
      (solve idleBackEnd).Ends s tr (.done true) t ∧
      t.getCost = 12 ∧ d.softCost (assignment t.solution) = 13 := by
  obtain ⟨d, path, s, history, facts⟩ := history_of_replay idleBackEnd () incrementalCall 60
    exceedingScript (fun r => decide (r.2.2.isIncremental = true ∧ r.1.total < 2 ^ 63 ∧
      endTest (solve idleBackEnd) 60 (fun _ b t => b && decide (t.getCost = 12 ∧
        r.1.softCost (assignment t.solution) = 13)) r.2.2 = true)) (by decide +kernel)
  obtain ⟨mode, small, test⟩ := of_decide_eq_true facts
  obtain ⟨tr, b, t, ends, found⟩ := ends_of_endTest test
  obtain ⟨yes, worth⟩ := Bool.and_eq_true_iff.mp found
  obtain ⟨cost, soft⟩ := of_decide_eq_true worth
  rw [yes] at ends
  exact ⟨d, path, s, tr, t, history, mode, small, ends, cost, soft⟩

end Incremental

section Default

def unhardenedCall (env : Env K) (d : Story) (s : EvalMaxSAT K) : Call → Prop
  | .update u => d.Builds u
  | .solve => Unhardened env s

/-- A solve after others is optimal, if those before hardened nothing and no old cardinality
misleads the local optimizer. -/
theorem later_solve_optimal (sound : env.Sound) (h : History env core (unhardenedCall env) d path s)
    (small : d.total < 2 ^ 63) (levelled : Levelled env s) :
    ∃ tr b t, (solve env).Ends s tr (.done b) t ∧ Optimal d b t := by
  have steady := history_steady sound (fun _ _ _ builds => builds)
    (fun _ _ _ unhardened => unhardened) h small
  have described := history_described sound (history_mono (fun _ _ _ both => both.2) steady)
    (by omega)
  obtain ⟨tr, b, t, ends, optimal, _⟩ := described_solve sound described small levelled
  exact ⟨tr, b, t, ends, optimal⟩

def checkedCall (env : Env K) (fuel : Nat) (d : Story) (s : EvalMaxSAT K) : Call → Prop
  | .update u => d.Builds u
  | .solve => endTest (solve env) fuel (fun tr _ _ => tr.all fun e => decide (e.label ≠ .harden)) s = true

instance (fuel : Nat) (d : Story) (s : EvalMaxSAT K) : (c : Call) →
    Decidable (checkedCall env fuel d s c)
  | .update u => decidableBuilds d u
  | .solve => inferInstanceAs (Decidable (_ = true))

theorem unhardened_of_checked {fuel : Nat} (c : Call) (checked : checkedCall env fuel d s c) :
    unhardenedCall env d s c := by
  cases c with
  | update u => exact checked
  | solve =>
    intro tr o t ends e mem
    obtain ⟨_, _, _, ends', all⟩ := ends_of_endTest checked
    obtain ⟨rfl, _, rfl⟩ := Prog.ends_unique ends' ends
    exact of_decide_eq_true (List.all_eq_true.mp all e mem)

def evenScript : List Call :=
  [.update .newVar, .update .newVar, .update (.addClause [-1, -2] none),
    .update (.addClause [1] (some 1)), .update (.addClause [2] (some 1)), .solve,
    .update (.addClause [-2] none)]

theorem later_solve_optimal_even : ∃ d, ∃ s : EvalMaxSAT Unit, d.hard = [[-1, -2], [-2]] ∧
    s.solutionCost = 1 ∧ ∃ tr b t, (solve idleBackEnd).Ends s tr (.done b) t ∧ Optimal d b t := by
  obtain ⟨d, path, s, history, facts⟩ := history_of_replay idleBackEnd () (checkedCall idleBackEnd 60)
    60 evenScript (fun r => decide (r.1.total < 2 ^ 63 ∧ r.1.hard = [[-1, -2], [-2]] ∧
      r.2.2.solutionCost = 1 ∧ levelledTest idleBackEnd 60 r.2.2 = true)) (by decide +kernel)
  obtain ⟨small, hard, cost, test⟩ := of_decide_eq_true facts
  exact ⟨d, s, hard, cost, later_solve_optimal idle_sound
    (history_mono (fun _ _ => unhardened_of_checked) history) small (levelled_of_test test)⟩

def choiceScript : List Call :=
  [.update .newVar, .update .newVar, .update (.addClause [-1, -2] none),
    .update (.addClause [1] (some 2)), .update (.addClause [2] (some 3))]

def choiceStory : Story := ⟨[1, 2], [], [[-1, -2]], [([1], 2), ([2], 3)]⟩

/-- The first solve hardens the literal it kept, which the clause that comes next refutes. -/
theorem hardened_literal_misleads : ∃ path s tr t tr' u,
    History idleBackEnd () buildingCall choiceStory path s ∧ s.isIncremental = false ∧
      (solve idleBackEnd).Ends s tr (.done true) t ∧ t.getCost = 2 ∧
      (solve idleBackEnd).Ends (t.addHardClause [-2]) tr' (.done false) u ∧
      Models (fun v => decide (v = 1)) (choiceStory.record (.addClause [-2] none) 0).hard := by
  obtain ⟨d, path, s, history, facts⟩ := history_of_replay idleBackEnd () buildingCall 1
    choiceScript (fun r => decide (r.1 = choiceStory ∧ r.2.2.isIncremental = false ∧
      endTest (solve idleBackEnd) 60 (fun _ b t => b && decide (t.getCost = 2 ∧
        endTest (solve idleBackEnd) 60 (fun _ b _ => !b) (t.addHardClause [-2]) = true))
        r.2.2 = true)) (by decide +kernel)
  obtain ⟨rfl, mode, test⟩ := of_decide_eq_true facts
  obtain ⟨tr, b, t, ends, found⟩ := ends_of_endTest test
  obtain ⟨yes, rest⟩ := Bool.and_eq_true_iff.mp found
  obtain ⟨cost, test'⟩ := of_decide_eq_true rest
  obtain ⟨tr', b', u, ends', no⟩ := ends_of_endTest test'
  rw [yes] at ends
  rw [show b' = false by simpa using no] at ends'
  exact ⟨path, s, tr, t, tr', u, history, mode, ends, cost, ends', by decide⟩

end Default
end EvalMaxSat
