import EvalMaxSat.Literals
import EvalMaxSat.OrderedContainers
import EvalMaxSat.Weights

/-!
The SAT back end. CaDiCaL, the clocks, the random generator, the clique finder and the
floating-point comparisons are the parameters of an `Env`; `Solver_cadical` is the wrapper
the program calls.
-/
namespace EvalMaxSat
open Literals OrderedContainers

inductive Answer where
  | sat (model : List Bool)
  | unsat (failed : List Int)
  | unknown
  deriving DecidableEq, Repr

inductive Limit where
  | unlimited
  | conflicts (budget : Nat)
  | time
  deriving DecidableEq, Repr

abbrev WeightMap := OMap Nat (OSet Int)

def assignment (solution : List Bool) : Assignment := fun v => solution.getD v false

/-- Everything the program reads from outside. `K` is the internal state of the back end
and of the clocks, so that an answer may depend on all that happened before. -/
structure Env (K : Type) where
  answer : K → Cnf → List Int → Limit → Answer × K
  propagate : K → Cnf → List Int → Option (List Int) × K
  clock : K → Bool × K
  shuffle : K → List Int → List Int × K
  maxclique : K → (Nat → Nat → Bool) → Nat → List Nat × K
  /-- The quotient of two numbers as a `double`. -/
  quotient : Nat → Nat → ℚ
  /-- `a < b * 0.5` on `double`s. -/
  belowHalf : Nat → Nat → Bool
  /-- Whether stepping back from the first bucket stays there; it gives the end otherwise. -/
  beginDecrement : WeightMap → Bool

structure Env.Sound {K : Type} (env : Env K) : Prop where
  sat : ∀ k f as lim model, (env.answer k f as lim).1 = .sat model →
    Models (assignment model) f ∧ AllTrue (assignment model) as
  unsat : ∀ k f as lim failed, (env.answer k f as lim).1 = .unsat failed →
    Inconsistent f (as.filter (· ∈ failed))
  complete : ∀ k f as, (env.answer k f as .unlimited).1 ≠ .unknown
  implied : ∀ k f as prop, (env.propagate k f as).1 = some prop →
    ∀ l ∈ prop, Inconsistent f (-l :: as)
  newly : ∀ k f as prop, (env.propagate k f as).1 = some prop →
    prop.Nodup ∧ ∀ l ∈ prop, l ≠ 0 ∧ l ∉ as ∧ -l ∉ as ∧ [l] ∉ f ∧ [-l] ∉ f
  failing : ∀ k f as, (env.propagate k f as).1 = none → Inconsistent f as
  permutes : ∀ k xs, (env.shuffle k xs).1.Perm xs
  clique : ∀ k conn size, (∀ i j, conn i j = conn j i) →
    (env.maxclique k conn size).1.Nodup ∧ (∀ i ∈ (env.maxclique k conn size).1, i < size) ∧
    ∀ i ∈ (env.maxclique k conn size).1, ∀ j ∈ (env.maxclique k conn size).1,
      i ≠ j → conn i j = true

structure Solver_cadical (K : Type) where
  core : K
  nVar : Nat
  clauses : Cnf
  last : Answer

namespace Solver_cadical
variable {K : Type}

def newVar (s : Solver_cadical K) : Int × Solver_cadical K :=
  ((s.nVar + 1 : Nat), { s with nVar := s.nVar + 1 })

def addClause (c : Clause) (s : Solver_cadical K) : Solver_cadical K :=
  { s with
    nVar := c.foldl (fun n l => if n < l.natAbs then l.natAbs else n) s.nVar
    clauses := s.clauses ++ [c] }

def query (env : Env K) (as : List Int) (lim : Limit) (s : Solver_cadical K) :
    Answer × Solver_cadical K :=
  let (a, k) := env.answer s.core s.clauses as lim
  (a, { s with core := k, last := a })

def getSolution (s : Solver_cadical K) : List Bool :=
  match s.last with
  | .sat model => model ++ List.replicate (s.nVar + 1 - model.length) false
  | _ => []

def getConflict (assumptions : List Int) (s : Solver_cadical K) : List Int :=
  match s.last with
  | .unsat failed => assumptions.filter (· ∈ failed)
  | _ => []

def propagate (env : Env K) (assum : List Int) (s : Solver_cadical K) :
    Option (List Int) × Solver_cadical K :=
  let (r, k) := env.propagate s.core s.clauses assum
  (r, { s with core := k })

end Solver_cadical
end EvalMaxSat
