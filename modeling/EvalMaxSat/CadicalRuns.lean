import EvalMaxSat.CadicalApi

/-!
The wrapper over the interface of the library is the back end that the program is verified with.
Whatever is called in whatever order, no assumption and no limit of an earlier call reaches a
later one, and a call that repeats itself repeats its question.
-/
namespace EvalMaxSat
open Literals PartialMachines

namespace Cadical

variable {K : Type}

/-- The question is put until there is an answer, `patience` more times at most. -/
def retry (core : Core K) : Nat → K → Cnf → List Int → Answer × K
  | 0, k, f, as => core.search k f as none none
  | patience + 1, k, f, as =>
    let r := core.search k f as none none
    if r.1 = .unknown then retry core patience r.2 f as else r

/-- The back end of the program, from the search of the library. The time allowed for a limited
call depends on the clocks. -/
def withCadical (base : Env K) (core : Core K) (patience : Nat) (seconds : K → ℚ) : Env K :=
  { base with
    answer := fun k f as lim =>
      match lim with
      | .unlimited => retry core patience k f as
      | .conflicts budget => core.search k f as (some budget) none
      | .time => core.search k f as none (if seconds k < 0 then none else some (seconds k))
    propagate := core.implicants }

inductive Request where
  | newVar
  | addClause (clause : Clause)
  | solve (assumption : List Int)
  | solveForced (assumption forced : List Int)
  | solveSolution (solution : List Bool)
  | solveLimited (assumption : List Int) (confBudget : Nat) (except : Int)
  | solveWithTimeout (assumption : List Int) (except : Int)
  | propagate (assum : List Int)
  | getSolution
  | getConflict (assumptions : List Int)
  deriving DecidableEq, Repr

inductive Reply where
  | variable (v : Int)
  | silent
  | result (b : Option Bool)
  | implied (lits : Option (List Int))
  | solution (vals : List Bool)
  | conflict (lits : List Int)
  deriving DecidableEq, Repr

def solutionLits (solution : List Bool) : List Int :=
  (List.range' 1 (solution.length - 1)).map fun i =>
    if solution.getD i false then (i : Int) else -(i : Int)

namespace Request

def lits : Request → List Int
  | .addClause clause => clause
  | .solve assumption => assumption
  | .solveForced assumption forced => forced ++ assumption
  | .solveSolution solution => solutionLits solution
  | .solveLimited assumption _ _ => assumption
  | .solveWithTimeout assumption _ => assumption
  | .propagate assum => assum
  | .getConflict assumptions => assumptions
  | _ => []

def onInterface (core : Core K) (patience : Nat) (seconds : K → ℚ) :
    Request → Interface K → Option (Reply × Interface K)
  | .newVar, w => some (.variable w.newVar.1, w.newVar.2)
  | .addClause clause, w => do
    let w ← w.addClause clause
    return (.silent, w)
  | .solve assumption, w => do
    let (b, w) ← w.solve core patience assumption
    return (.result b, w)
  | .solveForced assumption forced, w => do
    let (b, w) ← w.solveForced core patience assumption forced
    return (.result b, w)
  | .solveSolution solution, w => do
    let (b, w) ← w.solveSolution core patience solution
    return (.result b, w)
  | .solveLimited assumption confBudget except, w => do
    let (b, w) ← w.solveLimited core assumption confBudget except
    return (.result b, w)
  | .solveWithTimeout assumption except, w => do
    let (b, w) ← w.solveWithTimeout core assumption (seconds w.solver.core) except
    return (.result b, w)
  | .propagate assum, w => do
    let (prop, w) ← w.propagate core assum
    return (.implied prop, w)
  | .getSolution, w => do
    let vals ← w.getSolution
    return (.solution vals, w)
  | .getConflict assumptions, w => do
    let lits ← w.getConflict assumptions
    return (.conflict lits, w)

end Request

/-- What an answer lets one read: a solution, a conflict or neither. -/
def told : Answer → Option Bool
  | .sat _ => some true
  | .unsat _ => some false
  | .unknown => none

/-- The back end with what the last answer, as far as it still stands, lets one read. -/
structure Tracked (K : Type) where
  backEnd : Solver_cadical K
  readable : Option Bool

def Tracked.query (env : Env K) (as : List Int) (lim : Limit) (b : Tracked K) : Reply × Tracked K :=
  let r := b.backEnd.query env as lim
  (.result (told r.1), ⟨r.2, told r.1⟩)

def Request.onBackEnd (env : Env K) : Request → Tracked K → Option (Reply × Tracked K)
  | .newVar, b => some (.variable b.backEnd.newVar.1, { b with backEnd := b.backEnd.newVar.2 })
  | .addClause clause, b => some (.silent, ⟨b.backEnd.addClause clause, none⟩)
  | .solve assumption, b => some (b.query env assumption .unlimited)
  | .solveForced assumption forced, b =>
    some (b.query env (forced ++ assumption.filter fun lit => -lit ∉ forced) .unlimited)
  | .solveSolution solution, b => some (b.query env (solutionLits solution) .unlimited)
  | .solveLimited assumption confBudget except, b =>
    some (b.query env (assumption.filter (· ≠ except)) (.conflicts confBudget))
  | .solveWithTimeout assumption except, b =>
    some (b.query env (assumption.filter (· ≠ except)) .time)
  | .propagate assum, b =>
    let r := b.backEnd.propagate env assum
    some (.implied r.1, ⟨r.2, none⟩)
  | .getSolution, b =>
    if b.readable = some true then some (.solution b.backEnd.getSolution, b) else none
  | .getConflict assumptions, b =>
    if assumptions = [] ∨ b.readable = some false then
      some (.conflict (b.backEnd.getConflict assumptions), b)
    else none

/-- The wrapper is in the state of the back end: nothing is left of earlier calls, and what can be
read is the last answer. -/
structure Mirrors (w : Interface K) (b : Tracked K) : Prop where
  core : w.solver.core = b.backEnd.core
  vars : w.nVar = b.backEnd.nVar
  clauses : w.solver.clauses = b.backEnd.clauses
  closed : w.solver.clause = []
  unlimited : w.solver.conflicts = none
  untimed : w.solver.timeout = none
  quiet : b.readable = none →
    w.solver.assumptions = [] ∧ (w.solver.state = .configuring ∨ w.solver.state = .unknown)
  satisfied : b.readable = some true →
    w.solver.state = .satisfied ∧ b.backEnd.last = .sat w.solver.vals
  unsatisfied : b.readable = some false →
    w.solver.state = .unsatisfied ∧ b.backEnd.last = .unsat w.solver.failing

section States
variable {s : Solver K}

@[simp] theorem transition_state : s.transition_to_unknown_state.state = .unknown := by
  unfold Solver.transition_to_unknown_state
  cases state : s.state <;> rfl

theorem transition_unknown (unknown : s.state = .unknown) : s.transition_to_unknown_state = s := by
  unfold Solver.transition_to_unknown_state
  rw [unknown]
  cases s
  cases unknown
  rfl

theorem transition_limits (c : Option Nat) (d : Option ℚ) :
    { s with conflicts := c, timeout := d }.transition_to_unknown_state =
      { s.transition_to_unknown_state with conflicts := c, timeout := d } := by
  unfold Solver.transition_to_unknown_state
  cases s.state <;> rfl

@[simp] theorem transition_conflicts : s.transition_to_unknown_state.conflicts = s.conflicts := by
  unfold Solver.transition_to_unknown_state
  cases s.state <;> rfl

@[simp] theorem transition_timeout : s.transition_to_unknown_state.timeout = s.timeout := by
  unfold Solver.transition_to_unknown_state
  cases s.state <;> rfl

theorem assume_valid {lit : Int} (valid : validLit lit = true) :
    s.assume lit = some { s.transition_to_unknown_state with
      assumptions := s.transition_to_unknown_state.assumptions ++ [lit] } := by
  unfold Solver.assume
  rw [if_pos valid]

theorem assumeAll_taken {lits : List Int} (valid : ∀ l ∈ lits, validLit l = true)
    (ready : s.state ≠ .adding) : ∃ t, Interface.assumeAll lits s = some t ∧ t.state ≠ .adding ∧
      t.transition_to_unknown_state = { s.transition_to_unknown_state with
        assumptions := s.transition_to_unknown_state.assumptions ++ lits } := by
  induction lits generalizing s with
  | nil => exact ⟨s, rfl, ready, by rw [List.append_nil]⟩
  | cons lit lits ih =>
    have first := assume_valid (s := s) (valid lit List.mem_cons_self)
    obtain ⟨t, taken, still, place⟩ := @ih { s.transition_to_unknown_state with
      assumptions := s.transition_to_unknown_state.assumptions ++ [lit] }
      (fun l mem => valid l (List.mem_cons_of_mem lit mem)) (by simp)
    refine ⟨t, ?_, still, ?_⟩
    · unfold Interface.assumeAll
      rw [first]
      exact taken
    · rw [place, transition_unknown (by simp)]
      simp

theorem add_valid {lit : Int} (valid : validLit lit = true) :
    s.add lit = some { s.transition_to_unknown_state with
      clause := s.transition_to_unknown_state.clause ++ [lit], state := .adding } := by
  have nonzero : lit ≠ 0 := by
    intro zero
    rw [zero] at valid
    simp [validLit] at valid
  unfold Solver.add
  rw [if_neg (by simp [valid])]
  simp only [if_neg nonzero]

theorem add_zero : s.add 0 = some { s.transition_to_unknown_state with
    clauses := s.transition_to_unknown_state.clauses ++ [s.transition_to_unknown_state.clause],
    clause := [] } := by
  unfold Solver.add
  rw [if_neg (by simp)]
  simp

end States

section Mirroring
variable {w : Interface K} {b : Tracked K}

theorem mirrors_ready (mirrors : Mirrors w b) : w.solver.state ≠ .adding ∧
    w.solver.transition_to_unknown_state = ⟨b.backEnd.core, .unknown, b.backEnd.clauses, [], [],
      none, none, w.solver.vals, w.solver.failing⟩ := by
  obtain ⟨core, vars, clauses, closed, unlimited, untimed, quiet, satisfied, unsatisfied⟩ := mirrors
  rw [← core, ← clauses, ← closed, ← unlimited, ← untimed]
  unfold Solver.transition_to_unknown_state
  rcases readable : b.readable with _ | _ | _
  · obtain ⟨none, state | state⟩ := quiet readable
    · rw [state, closed, unlimited, untimed, ← none]
      exact ⟨by decide, rfl⟩
    · rw [state, closed, unlimited, untimed, ← none]
      exact ⟨by decide, rfl⟩
  · rw [(unsatisfied readable).1, closed, unlimited, untimed]
    exact ⟨by decide, rfl⟩
  · rw [(satisfied readable).1, closed, unlimited, untimed]
    exact ⟨by decide, rfl⟩

def Tracked.answered (b : Tracked K) (a : Answer × K) : Tracked K :=
  ⟨{ b.backEnd with core := a.2, last := a.1 }, told a.1⟩

theorem answered_mirrors (mirrors : Mirrors w b) (as : List Int) (a : Answer × K) (s : Solver K)
    (place : s = ⟨b.backEnd.core, .unknown, b.backEnd.clauses, [], as, none, none, w.solver.vals,
      w.solver.failing⟩) :
    Interface.verdict (s.answered a).1 = told a.1 ∧
      Mirrors { w with solver := (s.answered a).2 } (b.answered a) := by
  subst place
  rcases a with ⟨model | failed | _, k⟩
  · exact ⟨rfl, rfl, mirrors.vars, rfl, rfl, rfl, rfl, by simp [Tracked.answered, told],
      fun _ => ⟨rfl, rfl⟩, by simp [Tracked.answered, told]⟩
  · exact ⟨rfl, rfl, mirrors.vars, rfl, rfl, rfl, rfl, by simp [Tracked.answered, told],
      by simp [Tracked.answered, told], fun _ => ⟨rfl, rfl⟩⟩
  · exact ⟨rfl, rfl, mirrors.vars, rfl, rfl, rfl, rfl, fun _ => ⟨rfl, .inr rfl⟩,
      by simp [Tracked.answered, told], by simp [Tracked.answered, told]⟩

/-- One call puts exactly its own question, and under its own limits. -/
theorem ask_mirrors (core : Core K) (mirrors : Mirrors w b) {lits : List Int}
    (valid : ∀ l ∈ lits, validLit l = true) {bound : Solver K → Solver K} {c : Option Nat}
    {d : Option ℚ} (limits : ∀ s : Solver K, s.conflicts = none → s.timeout = none →
      bound s = { s with conflicts := c, timeout := d }) :
    ∃ w', Interface.ask core bound lits w =
        some (told (core.search b.backEnd.core b.backEnd.clauses lits c d).1, w') ∧
      Mirrors w' (b.answered (core.search b.backEnd.core b.backEnd.clauses lits c d)) := by
  obtain ⟨ready, idle⟩ := mirrors_ready mirrors
  obtain ⟨s, taken, still, place⟩ := assumeAll_taken valid ready
  rw [idle, List.nil_append] at place
  have unlimited : s.conflicts = none := by rw [← transition_conflicts, place]
  have untimed : s.timeout = none := by rw [← transition_timeout, place]
  obtain ⟨verdict, after⟩ := answered_mirrors mirrors lits
    (core.search b.backEnd.core b.backEnd.clauses lits c d) _ rfl
  refine ⟨_, ?_, after⟩
  unfold Interface.ask Solver.solve
  rw [taken, Option.bind_eq_bind, Option.bind_some, limits s unlimited untimed, if_neg still,
    ← verdict]
  simp only [transition_limits, place]
  rfl

theorem id_limits (s : Solver K) (unlimited : s.conflicts = none) (untimed : s.timeout = none) :
    id s = { s with conflicts := none, timeout := none } := by
  rw [← unlimited, ← untimed]
  rfl

theorem solveOn_mirrors (core : Core K) (patience : Nat) (mirrors : Mirrors w b) {lits : List Int}
    (valid : ∀ l ∈ lits, validLit l = true) :
    ∃ w', Interface.solveOn core patience lits w =
        some (told (retry core patience b.backEnd.core b.backEnd.clauses lits).1, w') ∧
      Mirrors w' (b.answered (retry core patience b.backEnd.core b.backEnd.clauses lits)) := by
  induction patience generalizing w b with
  | zero => exact ask_mirrors core mirrors valid id_limits
  | succ patience ih =>
    obtain ⟨w', asked, after⟩ := ask_mirrors core mirrors valid id_limits
    unfold Interface.solveOn retry
    rw [asked, Option.bind_eq_bind, Option.bind_some]
    rcases answer : core.search b.backEnd.core b.backEnd.clauses lits none none with
      ⟨model | failed | _, k⟩
    · rw [answer] at after
      exact ⟨w', rfl, after⟩
    · rw [answer] at after
      exact ⟨w', rfl, after⟩
    · rw [answer] at after
      exact ih after

theorem addLits_mirrors {clause : Clause} (valid : ∀ l ∈ clause, validLit l = true) (s : Solver K)
    (n : Nat) : ∃ t, Interface.addLits clause ⟨s, n⟩ =
        some ⟨t, clause.foldl (fun n l => if n < l.natAbs then l.natAbs else n) n⟩ ∧
      t.transition_to_unknown_state = { s.transition_to_unknown_state with
        clause := s.transition_to_unknown_state.clause ++ clause } := by
  induction clause generalizing s n with
  | nil => exact ⟨s, rfl, by rw [List.append_nil]⟩
  | cons lit clause ih =>
    have first := add_valid (s := s) (valid lit List.mem_cons_self)
    obtain ⟨t, rest, place⟩ := ih (fun l mem => valid l (List.mem_cons_of_mem lit mem))
      { s.transition_to_unknown_state with
        clause := s.transition_to_unknown_state.clause ++ [lit], state := .adding }
      (if n < lit.natAbs then lit.natAbs else n)
    refine ⟨t, ?_, ?_⟩
    · unfold Interface.addLits
      rw [first, Option.bind_eq_bind, Option.bind_some, rest]
      rfl
    · rw [place]
      unfold Solver.transition_to_unknown_state
      cases s.state <;> simp

theorem addClause_agrees (mirrors : Mirrors w b) {clause : Clause}
    (valid : ∀ l ∈ clause, validLit l = true) :
    SameStep Mirrors (do let w ← w.addClause clause; return (Reply.silent, w))
      (some (.silent, ⟨b.backEnd.addClause clause, none⟩)) := by
  obtain ⟨ready, idle⟩ := mirrors_ready mirrors
  obtain ⟨t, added, place⟩ := addLits_mirrors valid w.solver w.nVar
  rw [idle, List.nil_append] at place
  unfold Interface.addClause
  rw [added, mirrors.vars]
  simp only [Option.bind_eq_bind, Option.bind_some, add_zero, place]
  exact .answered _
    ⟨rfl, rfl, rfl, rfl, rfl, rfl, fun _ => ⟨rfl, .inr rfl⟩, by simp, by simp⟩

theorem propagate_agrees (base : Env K) (core : Core K) (patience : Nat) (seconds : K → ℚ)
    (mirrors : Mirrors w b) (assum : List Int) :
    SameStep Mirrors (do let (prop, w) ← w.propagate core assum; return (Reply.implied prop, w))
      (some (.implied (b.backEnd.propagate (withCadical base core patience seconds) assum).1,
        ⟨(b.backEnd.propagate (withCadical base core patience seconds) assum).2, none⟩)) := by
  obtain ⟨ready, idle⟩ := mirrors_ready mirrors
  unfold Interface.propagate Solver.find_up_implicants
  rw [if_neg ready, idle]
  exact .answered _
    ⟨rfl, mirrors.vars, rfl, rfl, rfl, rfl, fun _ => ⟨rfl, .inr rfl⟩, by simp, by simp⟩

theorem failedLits_unsatisfied {s : Solver K} (state : s.state = .unsatisfied) {lits : List Int}
    (valid : ∀ l ∈ lits, validLit l = true) :
    Interface.failedLits s lits = some (lits.filter (· ∈ s.failing)) := by
  induction lits with
  | nil => rfl
  | cons lit lits ih =>
    unfold Interface.failedLits Solver.failed
    rw [if_pos ⟨valid lit List.mem_cons_self, state⟩,
      ih fun l mem => valid l (List.mem_cons_of_mem lit mem)]
    by_cases mem : lit ∈ s.failing <;> simp [mem]

theorem failedLits_refused {s : Solver K} (state : s.state ≠ .unsatisfied) {lits : List Int}
    (some : lits ≠ []) : Interface.failedLits s lits = none := by
  cases lits with
  | nil => exact absurd rfl some
  | cons lit lits =>
    unfold Interface.failedLits Solver.failed
    rw [if_neg fun both => state both.2]
    rfl

theorem mirrors_satisfied_iff (mirrors : Mirrors w b) :
    w.solver.state = .satisfied ↔ b.readable = some true := by
  constructor
  · intro state
    rcases readable : b.readable with _ | _ | _
    · have quiet := (mirrors.quiet readable).2
      rw [state] at quiet
      simp at quiet
    · have unsatisfied := (mirrors.unsatisfied readable).1
      rw [state] at unsatisfied
      simp at unsatisfied
    · rfl
  · exact fun readable => (mirrors.satisfied readable).1

theorem mirrors_unsatisfied_iff (mirrors : Mirrors w b) :
    w.solver.state = .unsatisfied ↔ b.readable = some false := by
  constructor
  · intro state
    rcases readable : b.readable with _ | _ | _
    · have quiet := (mirrors.quiet readable).2
      rw [state] at quiet
      simp at quiet
    · rfl
    · have satisfied := (mirrors.satisfied readable).1
      rw [state] at satisfied
      simp at satisfied
  · exact fun readable => (mirrors.unsatisfied readable).1

theorem newVar_agrees (mirrors : Mirrors w b) :
    SameStep Mirrors (some (Reply.variable w.newVar.1, w.newVar.2))
      (some (.variable b.backEnd.newVar.1, { b with backEnd := b.backEnd.newVar.2 })) := by
  have same : w.newVar.1 = b.backEnd.newVar.1 := by
    unfold Interface.newVar Solver_cadical.newVar
    rw [mirrors.vars]
  rw [same]
  constructor
  constructor
  · exact mirrors.core
  · unfold Interface.newVar Solver_cadical.newVar
    rw [mirrors.vars]
  · exact mirrors.clauses
  · exact mirrors.closed
  · exact mirrors.unlimited
  · exact mirrors.untimed
  · exact mirrors.quiet
  · exact mirrors.satisfied
  · exact mirrors.unsatisfied

theorem reset_mirrors (mirrors : Mirrors w b) :
    Mirrors { w with solver := w.solver.reset_assumptions } { b with readable := none } := by
  unfold Solver.reset_assumptions
  rw [(mirrors_ready mirrors).2]
  exact ⟨rfl, mirrors.vars, rfl, rfl, rfl, rfl, fun _ => ⟨rfl, .inr rfl⟩, by simp, by simp⟩

theorem getSolution_agrees (mirrors : Mirrors w b) :
    SameStep Mirrors (do let vals ← w.getSolution; return (Reply.solution vals, w))
      (if b.readable = some true then some (.solution b.backEnd.getSolution, b) else none) := by
  unfold Interface.getSolution Solver.getSolution
  rw [if_congr (mirrors_satisfied_iff mirrors) rfl rfl]
  split
  · rename_i readable
    have last := (mirrors.satisfied readable).2
    unfold Solver_cadical.getSolution
    rw [last, ← mirrors.vars]
    simp only [Option.bind_eq_bind, Option.bind_some]
    have same : (if w.solver.vals.length ≤ w.nVar then
        w.solver.vals ++ List.replicate (w.nVar + 1 - w.solver.vals.length) false
        else w.solver.vals) =
        w.solver.vals ++ List.replicate (w.nVar + 1 - w.solver.vals.length) false := by
      split
      · rfl
      · rw [show w.nVar + 1 - w.solver.vals.length = 0 by omega]
        simp
    rw [same]
    exact .answered _ mirrors
  · exact .refused

theorem getConflict_agrees (mirrors : Mirrors w b) {lits : List Int}
    (valid : ∀ l ∈ lits, validLit l = true) :
    SameStep Mirrors (do let lits ← w.getConflict lits; return (Reply.conflict lits, w))
      (if lits = [] ∨ b.readable = some false then
        some (.conflict (b.backEnd.getConflict lits), b) else none) := by
  unfold Interface.getConflict
  by_cases readable : b.readable = some false
  · obtain ⟨state, last⟩ := mirrors.unsatisfied readable
    rw [if_pos (.inr readable), failedLits_unsatisfied state valid]
    unfold Solver_cadical.getConflict
    rw [last]
    exact .answered _ mirrors
  · by_cases empty : lits = []
    · have none : b.backEnd.getConflict [] = [] := by
        unfold Solver_cadical.getConflict
        split <;> rfl
      rw [if_pos (.inl empty), empty, none]
      exact .answered _ mirrors
    · have state : w.solver.state ≠ .unsatisfied :=
        fun state => readable ((mirrors_unsatisfied_iff mirrors).mp state)
      rw [if_neg (by simp [empty, readable]), failedLits_refused state empty]
      exact .refused

theorem query_agrees {env : Env K} {as : List Int} {lim : Limit} {a : Answer × K}
    {x : Option (Option Bool × Interface K)}
    (asked : ∃ w', x = some (told a.1, w') ∧ Mirrors w' (b.answered a))
    (same : env.answer b.backEnd.core b.backEnd.clauses as lim = a) :
    SameStep Mirrors (do let (v, w) ← x; return (Reply.result v, w)) (some (b.query env as lim)) := by
  obtain ⟨w', rfl, after⟩ := asked
  subst same
  exact .answered _ after

theorem request_agrees (base : Env K) (core : Core K) (patience : Nat) (seconds : K → ℚ)
    (request : Request) (valid : ∀ l ∈ request.lits, validLit l = true) (mirrors : Mirrors w b) :
    SameStep Mirrors (request.onInterface core patience seconds w)
      (request.onBackEnd (withCadical base core patience seconds) b) := by
  cases request with
  | newVar => exact newVar_agrees mirrors
  | addClause clause => exact addClause_agrees mirrors valid
  | solve assumption => exact query_agrees (solveOn_mirrors core patience mirrors valid) rfl
  | solveForced assumption forced =>
    have fewer : ∀ l ∈ forced ++ assumption.filter fun lit => -lit ∉ forced,
        validLit l = true := by
      intro l mem
      apply valid
      rcases List.mem_append.mp mem with first | second
      · exact List.mem_append_left _ first
      · exact List.mem_append_right _ (List.mem_of_mem_filter second)
    exact query_agrees (solveOn_mirrors core patience mirrors fewer) rfl
  | solveSolution solution => exact query_agrees (solveOn_mirrors core patience mirrors valid) rfl
  | solveLimited assumption confBudget except =>
    have fewer : ∀ l ∈ assumption.filter (· ≠ except), validLit l = true :=
      fun l mem => valid l (List.mem_of_mem_filter mem)
    have limits : ∀ s : Solver K, s.conflicts = none → s.timeout = none →
        s.limit confBudget = { s with conflicts := some confBudget, timeout := none } := by
      intro s _ untimed
      unfold Solver.limit
      rw [if_neg (by omega), ← untimed]
      rfl
    exact query_agrees (ask_mirrors core mirrors fewer limits) rfl
  | solveWithTimeout assumption except =>
    have fewer : ∀ l ∈ assumption.filter (· ≠ except), validLit l = true :=
      fun l mem => valid l (List.mem_of_mem_filter mem)
    have limits : ∀ s : Solver K, s.conflicts = none → s.timeout = none →
        s.setTimeout (seconds w.solver.core) = { s with
          conflicts := none
          timeout := if seconds w.solver.core < 0 then none else some (seconds w.solver.core) } := by
      intro s unlimited _
      unfold Solver.setTimeout
      rw [← unlimited]
    refine query_agrees (ask_mirrors core (reset_mirrors mirrors) fewer limits) ?_
    rw [mirrors.core]
    rfl
  | propagate assum => exact propagate_agrees base core patience seconds mirrors assum
  | getSolution => exact getSolution_agrees mirrors
  | getConflict assumptions => exact getConflict_agrees mirrors valid

end Mirroring

theorem new_mirrors (core : K) : Mirrors (Interface.new core) ⟨⟨core, 0, [], .unknown⟩, none⟩ :=
  ⟨rfl, rfl, rfl, rfl, rfl, rfl, fun _ => ⟨rfl, .inl rfl⟩, by simp, by simp⟩

theorem requests_agree (base : Env K) (core : Core K) (patience : Nat) (seconds : K → ℚ)
    {requests : List Request} (valid : ∀ r ∈ requests, ∀ l ∈ r.lits, validLit l = true)
    {w : Interface K} {b : Tracked K} (mirrors : Mirrors w b) :
    runs (Request.onInterface core patience seconds) requests w =
      runs (Request.onBackEnd (withCadical base core patience seconds)) requests b :=
  runs_agree (fun r mem _ _ mirrors => request_agrees base core patience seconds r (valid r mem)
    mirrors) mirrors

/-- Whatever is called in whatever order, the wrapper over the interface of the library answers as
the back end does, and breaks the contract of the library in exactly the calls that read what the
last answer does not give. -/
theorem wrapper_is_backEnd (base : Env K) (core : Core K) (patience : Nat) (seconds : K → ℚ) (k : K)
    (requests : List Request) (valid : ∀ r ∈ requests, ∀ l ∈ r.lits, validLit l = true) :
    runs (Request.onInterface core patience seconds) requests (.new k) =
      runs (Request.onBackEnd (withCadical base core patience seconds)) requests
        ⟨⟨k, 0, [], .unknown⟩, none⟩ :=
  requests_agree base core patience seconds valid (new_mirrors k)

/-- The library as the reference back end would write it: every search tries all assignments. -/
def referenceCore : Core Unit where
  search := fun _ f as _ _ =>
    match search f as with
    | some model => (.sat model, ())
    | none => (.unsat as, ())
  implicants := referenceBackEnd.propagate

def sampleRequests : List Request :=
  [.newVar, .addClause [1, 2], .addClause [-1], .solve [-2], .getConflict [3, -2], .newVar,
    .solveLimited [2, 3] 10 3, .addClause [-2, 3], .solve [], .getSolution]

theorem sampleRequests_valid : ∀ r ∈ sampleRequests, ∀ l ∈ r.lits, validLit l = true := by
  decide

theorem wrapper_is_backEnd_small :
    runs (Request.onBackEnd (withCadical referenceBackEnd referenceCore 1 fun _ => 60))
      sampleRequests ⟨⟨(), 0, [], .unknown⟩, none⟩ = some [.variable 1, .silent, .silent,
        .result (some false), .conflict [-2], .variable 3, .result (some true), .silent,
        .result (some true), .solution [false, false, true, true]] :=
  (wrapper_is_backEnd referenceBackEnd referenceCore 1 (fun _ => 60) () sampleRequests
    sampleRequests_valid).symm.trans (by decide +kernel)

end Cadical
end EvalMaxSat
