import EvalMaxSat.ReferenceBackEnd
import EvalMaxSat.PartialMachines

/-!
The wrapper of the SAT solver, call by call. The state of the library's interface decides which
calls are allowed and how long assumptions and limits live; a call that breaks the contract has
no result, since the library aborts the process.
-/
namespace EvalMaxSat
open Literals

namespace Cadical

inductive State where
  | configuring
  | unknown
  | adding
  | satisfied
  | unsatisfied
  deriving DecidableEq, Repr

/-- The search and the propagation behind the interface, with the limits on conflicts and on
time. `K` is their internal state. -/
structure Core (K : Type) where
  search : K → Cnf → List Int → Option Nat → Option ℚ → Answer × K
  implicants : K → Cnf → List Int → Option (List Int) × K

structure Solver (K : Type) where
  core : K
  state : State
  clauses : Cnf
  clause : Clause
  assumptions : List Int
  conflicts : Option Nat
  timeout : Option ℚ
  vals : List Bool
  failing : List Int

variable {K : Type}

def validLit (lit : Int) : Bool := lit ≠ 0 ∧ lit ≠ -2 ^ 31

namespace Solver

def new (core : K) : Solver K := ⟨core, .configuring, [], [], [], none, none, [], []⟩

def transition_to_unknown_state (s : Solver K) : Solver K :=
  match s.state with
  | .satisfied | .unsatisfied => { s with assumptions := [], state := .unknown }
  | _ => { s with state := .unknown }

def add (lit : Int) (s : Solver K) : Option (Solver K) :=
  if lit ≠ 0 ∧ validLit lit = false then none
  else
    let s := s.transition_to_unknown_state
    if lit = 0 then some { s with clauses := s.clauses ++ [s.clause], clause := [] }
    else some { s with clause := s.clause ++ [lit], state := .adding }

def assume (lit : Int) (s : Solver K) : Option (Solver K) :=
  if validLit lit then
    let s := s.transition_to_unknown_state
    some { s with assumptions := s.assumptions ++ [lit] }
  else none

/-- After `call_external_solve_and_check_results` has its answer. -/
def answered (s : Solver K) : Answer × K → Nat × Solver K
  | (.sat model, k) => (10, { s with core := k, state := .satisfied, vals := model })
  | (.unsat failed, k) => (20, { s with core := k, state := .unsatisfied, failing := failed })
  | (.unknown, k) => (0, { s with core := k, assumptions := [] })

def solve (core : Core K) (s : Solver K) : Option (Nat × Solver K) :=
  if s.state = .adding then none
  else
    let s := s.transition_to_unknown_state
    let r := core.search s.core s.clauses s.assumptions s.conflicts s.timeout
    some (answered { s with conflicts := none, timeout := none } r)

/-- `limit("conflicts", l)`. -/
def limit (l : Int) (s : Solver K) : Solver K :=
  { s with conflicts := if l < 0 then none else some l.toNat }

def setTimeout (seconds : ℚ) (s : Solver K) : Solver K :=
  { s with timeout := if seconds < 0 then none else some seconds }

def reset_assumptions (s : Solver K) : Solver K :=
  { s.transition_to_unknown_state with assumptions := [] }

def find_up_implicants (core : Core K) (antecedents : List Int) (s : Solver K) :
    Option (Option (List Int) × Solver K) :=
  if s.state = .adding then none
  else
    let s := s.transition_to_unknown_state
    let r := core.implicants s.core s.clauses (s.assumptions ++ antecedents)
    some (r.1, { s with core := r.2, assumptions := [], conflicts := none, timeout := none })

def getSolution (s : Solver K) : Option (List Bool) :=
  if s.state = .satisfied then some s.vals else none

def failed (lit : Int) (s : Solver K) : Option Bool :=
  if validLit lit ∧ s.state = .unsatisfied then some (decide (lit ∈ s.failing)) else none

end Solver

structure Interface (K : Type) where
  solver : Solver K
  nVar : Nat

namespace Interface

def new (core : K) : Interface K := ⟨.new core, 0⟩

def getSolution (w : Interface K) : Option (List Bool) := do
  let res ← w.solver.getSolution
  return if res.length ≤ w.nVar then res ++ List.replicate (w.nVar + 1 - res.length) false else res

def newVar (w : Interface K) : Int × Interface K := ((w.nVar + 1 : Nat), { w with nVar := w.nVar + 1 })

/-- The loop of `addClause`. -/
def addLits : Clause → Interface K → Option (Interface K)
  | [], w => some w
  | lit :: lits, w => do
    let solver ← w.solver.add lit
    addLits lits ⟨solver, if w.nVar < lit.natAbs then lit.natAbs else w.nVar⟩

def addClause (clause : Clause) (w : Interface K) : Option (Interface K) := do
  let w ← addLits clause w
  let solver ← w.solver.add 0
  return { w with solver := solver }

/-- `for (int lit : assumption) solver->assume(lit);`. -/
def assumeAll : List Int → Solver K → Option (Solver K)
  | [], s => some s
  | lit :: lits, s => do
    let s ← s.assume lit
    assumeAll lits s

def verdict (result : Nat) : Option Bool :=
  if result = 10 then some true else if result = 20 then some false else none

/-- One call under assumptions, with the limits that `bound` sets. -/
def ask (core : Core K) (bound : Solver K → Solver K) (lits : List Int) (w : Interface K) :
    Option (Option Bool × Interface K) := do
  let s ← assumeAll lits w.solver
  let (result, s) ← (bound s).solve core
  return (verdict result, { w with solver := s })

/-- The functions called `solve`, which ask again while there is no answer, `patience` times at
most. -/
def solveOn (core : Core K) : Nat → List Int → Interface K → Option (Option Bool × Interface K)
  | 0, lits, w => ask core id lits w
  | patience + 1, lits, w => do
    let (result, w) ← ask core id lits w
    if result.isSome then return (result, w) else solveOn core patience lits w

def solve (core : Core K) (patience : Nat) (assumption : List Int) (w : Interface K) :
    Option (Option Bool × Interface K) := solveOn core patience assumption w

/-- `solve(assumption, forced)`. -/
def solveForced (core : Core K) (patience : Nat) (assumption forced : List Int)
    (w : Interface K) : Option (Option Bool × Interface K) :=
  solveOn core patience (forced ++ assumption.filter fun lit => -lit ∉ forced) w

/-- `solve(solution)`. -/
def solveSolution (core : Core K) (patience : Nat) (solution : List Bool) (w : Interface K) :
    Option (Option Bool × Interface K) :=
  solveOn core patience ((List.range' 1 (solution.length - 1)).map fun i =>
    if solution.getD i false then (i : Int) else -(i : Int)) w

def solveLimited (core : Core K) (assumption : List Int) (confBudget : Int) (except : Int)
    (w : Interface K) : Option (Option Bool × Interface K) :=
  ask core (·.limit confBudget) (assumption.filter (· ≠ except)) w

def solveWithTimeout (core : Core K) (assumption : List Int) (timeout_sec : ℚ) (except : Int)
    (w : Interface K) : Option (Option Bool × Interface K) :=
  ask core (·.setTimeout timeout_sec) (assumption.filter (· ≠ except))
    { w with solver := w.solver.reset_assumptions }

/-- The loop of `getConflict`. -/
def failedLits (s : Solver K) : List Int → Option (List Int)
  | [] => some []
  | lit :: lits => do
    let failed ← s.failed lit
    let rest ← failedLits s lits
    return if failed then lit :: rest else rest

def getConflict (assumptions : List Int) (w : Interface K) : Option (List Int) :=
  failedLits w.solver assumptions

def propagate (core : Core K) (assum : List Int) (w : Interface K) :
    Option (Option (List Int) × Interface K) := do
  let (result, s) ← w.solver.find_up_implicants core assum
  return (result, { w with solver := s })

end Interface
end Cadical
end EvalMaxSat
