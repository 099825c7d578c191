import EvalMaxSat.Formula
import EvalMaxSat.StepProgram

/-!
The member functions that ask the back end, up to the at-most-one passes run before and
during a solve. Each change of the state is a step of its own kind.
-/
namespace EvalMaxSat
open Literals OrderedContainers StepProgram

/-- `clique`, `assums` and `report` change nothing: they mark a call of `processAtMostOne`, an
assertion on the assumptions and the printing of a line `o cost`. -/
inductive StepKind where
  | start
  | stop
  | query
  | unit
  | relax
  | card
  | core
  | amo
  | harden
  | dropBucket
  | bound
  | clique (clause : Clause)
  | assums (minWeightToConsider : Nat) (assum : List Int)
  | report (cost : Nat)
  deriving DecidableEq, Repr

abbrev Program (K : Type) := Prog StepKind (EvalMaxSAT K)

namespace EvalMaxSAT
variable {K : Type} (env : Env K)

section BackEnd

def query (as : List Int) (lim : Limit) : Program K Answer :=
  .act .query fun s =>
    let (a, solver) := s.solver.query env as lim
    (a, { s with solver := solver })

/-- `solver->solve(assumption)`. -/
def solverSolve (as : List Int) : Program K Bool := do
  match ← query env as .unlimited with
  | .sat _ => return true
  | _ => return false

/-- `solveLimited` and `solveWithTimeout`: `1` is `some true`, `0` is `some false`, `-1` is
`none`. -/
def solverSolveLimited (as : List Int) (lim : Limit) (except : Int) :
    Program K (Option Bool) := do
  match ← query env (as.filter (· ≠ except)) lim with
  | .sat _ => return some true
  | .unsat _ => return some false
  | .unknown => return none

def solverPropagate (assum : List Int) : Program K (Option (List Int)) :=
  .act .query fun s =>
    let (r, solver) := s.solver.propagate env assum
    (r, { s with solver := solver })

def withCore {α : Type} (f : K → α × K) : Program K α :=
  .act .query fun s =>
    let (a, k) := f s.solver.core
    (a, { s with solver := { s.solver with core := k } })

/-- The outcome of some comparison with a clock. -/
def clock : Program K Bool := withCore env.clock

end BackEnd

/-- `addClause({lit})` from inside a solve. -/
def addUnit (kind : StepKind) (lit : Int) : Program K Unit :=
  .act kind fun s => ((), s.addHardClause [lit])

/-- `clause[i] = clause.back(); clause.pop_back()`. -/
def swapRemove {α : Type} (xs : List α) (i : Nat) : List α :=
  match xs.getLast? with
  | none => xs
  | some x => (xs.set i x).dropLast

/-- The loop of `processAtMostOne` that takes `w` from every literal. -/
def peel (w : Int) : Nat → Nat → Clause → EvalMaxSAT K → Clause × EvalMaxSAT K
  | 0, _, clause, s => (clause, s)
  | fuel + 1, i, clause, s =>
    match clause[i]? with
    | none => (clause, s)
    | some lit =>
      let s : EvalMaxSAT K := { s with
        mapWeight2Assum := s.mapWeight2Assum.eraseLit (u64 (s.weight lit)) lit
        poids := s.poids.add lit (i64 (-w)) }
      if s.weight lit = 0 then peel w fuel i (swapRemove clause i) (s.relax lit).2
      else
        peel w fuel (i + 1) clause { s with
          mapWeight2Assum := s.mapWeight2Assum.insertLit (u64 (s.weight lit)) lit }

def minWeightFrom (w : Int) (s : EvalMaxSAT K) (clause : Clause) : Int :=
  clause.foldl (fun w lit => if s.weight lit < w then s.weight lit else w) w

/-- One round of `processAtMostOne`: what is left of the clause, and the new soft variable. -/
def amoRound (clause : Clause) (s : EvalMaxSAT K) : Option (Clause × Int) × EvalMaxSAT K :=
  let w := minWeightFrom (s.weight (clause.headD 0)) s clause.tail
  let (rest, s) := peel w clause.length 0 clause s
  let s := { s with cost := u64 (s.cost + w * ((clause.length : Int) - 1)) }
  match s.addClause clause (some w) with
  | none => (none, s)
  | some (var, s) => (some (rest, var), s)

def processAtMostOne (clause : Clause) : Program K (List Int) := do
  .act (.clique clause) fun s => ((), s)
  .loop (fun (clause, newAssum) => do
    if 1 < clause.length then
      match ← .act .amo (amoRound clause) with
      | none => .exit
      | some (rest, var) => return .inl (rest, newAssum ++ [var])
    else return .inr (newAssum ++ clause.take 1)) (clause, ([] : List Int))

abbrev Conn := Nat → Nat → Bool

def Conn.link (conn : Conn) (i j : Nat) : Conn :=
  fun x y => if (x = i ∧ y = j) ∨ (x = j ∧ y = i) then true else conn x y

/-- Rows and columns `i` of the matrix of the given size are set to `false`. -/
def Conn.clear (conn : Conn) (size i : Nat) : Conn :=
  fun x y => if (x = i ∧ y < size) ∨ (x < size ∧ y = i) then false else conn x y

/-- Link slot `i` to every other admitted slot whose literal `prop` refutes. -/
def Conn.linkAll (conn : Conn) (assumption : List Int) (admitted : Nat → Bool) (i : Nat)
    (prop : List Int) : Conn :=
  prop.foldl (fun conn lit2 =>
    (List.range assumption.length).foldl (fun conn k =>
      if admitted k ∧ assumption[k]? = some (-lit2) then conn.link i k else conn) conn) conn

/-- The loop of `adapt_am1_exact` that builds the graph. -/
def buildGraph (assumption : List Int) : Program K (List Int × Conn) :=
  .loop (fun (i, assumption, conn) => do
    match assumption[i]? with
    | none => return .inr (assumption, conn)
    | some lit1 =>
      match ← solverPropagate env [lit1] with
      | some prop => return .inl (i + 1, assumption, conn.linkAll assumption (· ≠ i) i prop)
      | none => do
        addUnit .unit (-lit1)
        return .inl (i, swapRemove assumption i, conn.clear assumption.length i))
    ((0, assumption, fun _ _ => false) : Nat × List Int × Conn)

structure Slots where
  assumption : List Int
  active : Nat → Bool
  conn : Conn

def Slots.release (g : Slots) (q : Nat) : Slots :=
  { g with
    active := fun k => if k = q then false else g.active k
    conn := g.conn.clear g.assumption.length q }

/-- A literal returned by `processAtMostOne` takes the slot of a literal of the clique. -/
def placeNewAssum (g : Slots) (q : Nat) (lit : Int) : Program K Slots := do
  let g : Slots := { g with
    assumption := g.assumption.set q lit
    active := fun k => if k = q then true else g.active k }
  match ← solverPropagate env [lit] with
  | some prop => return { g with conn := g.conn.linkAll g.assumption g.active q prop }
  | none => do
    addUnit .unit (-lit)
    return g

def adapt_am1_exact : Program K Bool := do
  let s ← .read
  let assumption := s.mapWeight2Assum.entries.flatMap (fun e => e.2.elems)
  if 30000 < assumption.length then return false
  let (assumption, conn) ← buildGraph env assumption
  if assumption.length = 0 then return true
  .loop (fun (g : Slots) => do
    let qmax ← withCore fun k => env.maxclique k g.conn g.assumption.length
    if qmax.length ≤ 2 then return .inr true
    let clause := qmax.map (fun q => g.assumption.getD q 0)
    let newAssum ← processAtMostOne clause
    let g ← .fold (fun g x => placeNewAssum env g x.1 x.2) (qmax.foldl Slots.release g)
      (qmax.zip newAssum)
    return .inl g) ⟨assumption, fun _ => true, conn⟩

/-- Keep of `rest` the elements that the back end shows incompatible with `a`. -/
def keepExclusive (a : Int) (rest : List Int) : Program K (List Int) :=
  .fold (fun kept b => do
    match ← solverSolveLimited env [-a, -b] (.conflicts 10000) 0 with
    | some false => return kept ++ [b]
    | _ => return kept) [] rest

def reduceCliqueV2 (clique : List Int) : Program K (List Int) := do
  let s ← .read
  let clique := if 1 < s.mapWeight2Assum.size then
      clique.insertionSort (fun a b => s.weight (-a) ≤ s.weight (-b))
    else clique
  .loop (fun (kept, todo) => do
    match todo with
    | [] => return .inr kept
    | a :: rest => do
      let rest ← keepExclusive env a rest
      return .inl (kept ++ [a], rest)) (([] : List Int), clique)

def softLit (s : EvalMaxSAT K) (var : Nat) : Int := if 0 < s.weight var then var else -var

/-- The loops of the fast at-most-one passes over the variables of nonzero weight. `some`
literals propagated by the soft literal go to `found`, a refuted one becomes a unit. -/
def sweepVariables (found : Int → List Int → Program K Nat) : Program K Nat :=
  .loop (fun (var, nbCliqueFound) => do
    let s ← .read
    if s.poids.size ≤ var then return .inr nbCliqueFound
    if s.weight var = 0 then return .inl (var + 1, nbCliqueFound)
    let lit := s.softLit var
    match ← solverPropagate env [lit] with
    | some prop => do
      let n ← found lit prop
      return .inl (var + 1, nbCliqueFound + n)
    | none => do
      addUnit .unit (-lit)
      return .inl (var + 1, nbCliqueFound + 1)) ((1, 0) : Nat × Nat)

/-- The body of `adapt_am1_VeryFastHeuristic` on the literals propagated by `lit`. -/
def pairRefuted (lit : Int) (prop : List Int) : Program K Nat := do
  let r ← .fold (fun (r : Nat × Bool) litProp => do
    let s ← .read
    if r.2 then return r
    if s.weight litProp < 0 then
      let _ ← processAtMostOne [-litProp, lit]
      let s ← .read
      return (r.1 + 1, s.weight lit = 0)
    else return r) (0, false) prop
  return r.1

def adapt_am1_VeryFastHeuristic : Program K Nat := sweepVariables env pairRefuted

/-- The body of `adapt_am1_FastHeuristicV7` on the literals propagated by `lit`. -/
def reduceAndProcess (lit : Int) (prop : List Int) : Program K Nat := do
  let s ← .read
  let clique := prop.filter (fun litProp => s.weight litProp < 0)
  if clique.length = 0 then return 0
  let clique ← reduceCliqueV2 env clique
  let _ ← processAtMostOne ((clique ++ [-lit]).map (fun l => -l))
  return 1

def adapt_am1_FastHeuristicV7 : Program K Nat :=
  sweepVariables env (reduceAndProcess env)

end EvalMaxSAT
end EvalMaxSat
