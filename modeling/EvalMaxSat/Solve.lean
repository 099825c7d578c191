import EvalMaxSat.AtMostOne

/-!
`LocalOptimizer2`, core minimisation, hardening, stratification and `solve`.
-/
namespace EvalMaxSat
open Literals OrderedContainers StepProgram

/-- `LocalOptimizer2`: the weights and the offset as they were when it was built. -/
structure LocalOptimizer2 where
  poids : WeightVector
  initialWeight : Nat
  deriving DecidableEq, Repr

namespace LocalOptimizer2
variable {K : Type}

/-- The source asserts that the solution has an entry for each weighted variable. -/
def calculateCostAssign (lo : LocalOptimizer2) (solution : List Bool) : Nat :=
  u64 ((List.range lo.poids.size).tail.foldl (fun coutSolution (lit : Nat) =>
    if 0 < lo.poids.get lit then
      if solution.getD lit false = false then u64 (coutSolution + lo.poids.get lit)
      else coutSolution
    else if lo.poids.get lit < 0 then
      if solution.getD lit false = true then u64 (coutSolution + i64 (-(lo.poids.get lit)))
      else coutSolution
    else coutSolution) 0 + (lo.initialWeight : Int))

/-- The soft literals of the weights, in the order of their variables. -/
def softLits (lo : LocalOptimizer2) : List Int :=
  (List.range lo.poids.size).tail.filterMap (fun (lit : Nat) =>
    if 0 < lo.poids.get lit then some (lit : Int)
    else if lo.poids.get lit < 0 then some (-(lit : Int))
    else none)

def optimize (env : Env K) (lo : LocalOptimizer2) (solution : List Bool) :
    Program K (Nat × List Bool) := do
  let falsified := lo.softLits.filter (fun l => litTrue (assignment solution) l = false)
  let satisfied := lo.softLits.filter (fun l => litTrue (assignment solution) l = true)
  let (assumSatisfied, modify) ← .fold (fun (r : List Int × Bool) lit => do
    match ← EvalMaxSAT.solverSolveLimited env (r.1 ++ [lit]) .time 0 with
    | some true => return (r.1 ++ [lit], true)
    | _ => return r) (satisfied, false) falsified.reverse
  if modify then
    let _ ← EvalMaxSAT.solverSolve env assumSatisfied
    let s ← .read
    let solution := s.solver.getSolution
    return (lo.calculateCostAssign solution, solution)
  else return (lo.calculateCostAssign solution, solution)

end LocalOptimizer2

namespace EvalMaxSAT
variable {K : Type} (env : Env K)

def hardenLits (lits : List Int) (nbHarden : Nat) (assum : OSet Int) :
    Program K (Nat × OSet Int) :=
  .fold (fun (r : Nat × OSet Int) lit => do
    addUnit .harden lit
    return (r.1 + 1, r.2.erase lit)) (nbHarden, assum) lits

/-- The number of literals hardened, and what is left of `assum`. -/
def harden (assum : OSet Int) : Program K (Nat × OSet Int) := do
  let s ← .read
  if s.isIncremental then return (0, assum)
  if s.mapWeight2Assum.size = 0 then return (0, assum)
  if s.mapWeight2Assum.size = 1 ∧ s.mapWeight2Assum.entries.head?.map Prod.fst = some 1 then
    return (0, assum)
  let maxCostLit := u64 ((s.solutionCost : Int) - s.cost)
  .loop (fun (nbHarden, assum) => do
    let s ← .read
    match s.mapWeight2Assum.last? with
    | none => return .inr (nbHarden, assum)
    | some (w, lits) => do
      if w < maxCostLit then return .inr (nbHarden, assum)
      let (nbHarden, assum) ← hardenLits lits.elems nbHarden assum
      let s ← .read
      if s.mapWeight2Assum.size = 1 then return .inr (nbHarden, assum)
      match s.mapWeight2Assum.last? with
      | none => return .inl (nbHarden, assum)
      | some (w, lits) => do
        if lits.elems = [] then
          .act .dropBucket fun s =>
            ((), { s with mapWeight2Assum := s.mapWeight2Assum.eraseKey w })
        return .inl (nbHarden, assum)) (0, assum)

/-- `--it2`, where `it` is at key `w`. -/
def stepBack (m : WeightMap) (w : Nat) : Option Nat :=
  match m.before? w with
  | some (j, _) => some j
  | none => if env.beginDecrement m then some w else none

def chooseNextMinWeight (minWeightToConsider : Nat) : Program K Nat := do
  let s ← .read
  if s.mapWeight2Assum.size ≤ 1 then return 1
  .loop (fun minWeight => do
    let s ← .read
    match s.mapWeight2Assum.before? minWeight with
    | none => return .inr 1
    | some (w, lits) => do
      if lits.elems = [] then
        .act .dropBucket fun s =>
          ((), { s with mapWeight2Assum := s.mapWeight2Assum.eraseKey w })
        let s ← .read
        if s.mapWeight2Assum.size ≤ 1 then return .inr 1
        return .inl minWeight
      else
        match stepBack env s.mapWeight2Assum w with
        | none => return .inr 1
        | some w2 =>
          if env.belowHalf w2 minWeightToConsider then return .inr w
          return .inl w) minWeightToConsider

section Minimize

/-- The order of `oneMinimize`: heaviest first, then by variable. -/
def minimizeOrder (s : EvalMaxSAT K) (a b : Int) : Prop :=
  s.weight b < s.weight a ∨ (s.weight a = s.weight b ∧ a.natAbs ≤ b.natAbs)

instance (s : EvalMaxSAT K) : DecidableRel (minimizeOrder s) :=
  fun _ _ => inferInstanceAs (Decidable (_ ∨ _))

/-- The first loop of `oneMinimize` shortens the core at its end. The result is the value
returned, or nothing when the second loop is to follow. -/
def shortenTail (b : Nat) (conflict : Clause) : Program K (Option ℚ × Clause) :=
  .loop (fun (conflict : Clause) => do
    match ← solverSolveLimited env conflict (.conflicts (10 * b)) (conflict.getLastD 0) with
    | some false => do
      let conflict := conflict.dropLast
      if conflict.length = 0 then return .inr (some 0, conflict)
      if ← clock env then
        let s ← .read
        return .inr (some (env.quotient conflict.length
          (u64 (s.weight (conflict.getLastD 0)))), conflict)
      return .inl conflict
    | _ => return .inr (none, conflict)) conflict

/-- The second loop of `oneMinimize` tries the other literals from the back. -/
def dropRedundant (b : Nat) (conflict : Clause) : Program K Clause :=
  .loop (fun (i, conflict) => do
    match i with
    | 0 => return .inr conflict
    | i + 1 => do
      let conflict ← do
        match ← solverSolveLimited env conflict (.conflicts b) (conflict.getD i 0) with
        | some false => pure (swapRemove conflict i)
        | _ => pure conflict
      if ← clock env then return .inr conflict
      return .inl (i, conflict)) (conflict.length - 1, conflict)

def oneMinimize (conflict : Clause) (b : Nat) : Program K (ℚ × Clause) := do
  let s ← .read
  let conflict := conflict.insertionSort (minimizeOrder s)
  if conflict.length = 0 then return (0, conflict)
  match ← shortenTail env b conflict with
  | (some p, conflict) => return (p, conflict)
  | (none, conflict) => do
    let s ← .read
    let weight := u64 (s.weight (conflict.getLastD 0))
    let conflict ← dropRedundant env b conflict
    return (env.quotient conflict.length weight, conflict)

def getConflict (assum : OSet Int) : Program K Clause := do
  let s ← .read
  return s.solver.getConflict assum.elems

structure Search where
  nbSolve : Nat
  lastImprove : Nat
  bestP : Option ℚ
  conflict : Clause

def Search.improvedBy (r : Search) (p : ℚ) : Bool :=
  match r.bestP with
  | none => true
  | some best => p < best

/-- The condition of the loop that looks for a better core. -/
def goesOn (r : Search) : Program K Bool := do
  if r.nbSolve < 3 * r.lastImprove ∨ r.nbSolve < 20 then return true
  else
    let inTime ← clock env
    return inTime && decide (r.nbSolve < 1000)

/-- The loop that looks for a better core. -/
def betterCore (assum : OSet Int) (conflict : Clause) : Program K Clause :=
  .loop (fun (r : Search) => do
    if (← goesOn env r) = false then return .inr r.conflict
    let r := { r with nbSolve := r.nbSolve + 1 }
    let tmp ← getConflict assum
    let (p, tmp) ← oneMinimize env tmp 10
    let improved := r.improvedBy p
    let r := if improved then { r with bestP := some p, conflict := tmp } else r
    if improved ∧ r.conflict.length ≤ 2 then return .inr r.conflict
    let r := if improved then { r with lastImprove := r.nbSolve } else r
    if ← clock env then return .inr r.conflict
    let vAssum ← withCore fun k => env.shuffle k assum.elems
    match ← solverSolveLimited env vAssum .time 0 with
    | none => return .inr r.conflict
    | _ => return .inl r) ⟨0, 0, none, conflict⟩

/-- Steps 1 and 2 of the treatment of a core. -/
def findCore (assum : OSet Int) (conflict : Clause) : Program K Clause := do
  let s ← .read
  let conflict ← if s.multiSolveStrategy ∧ 3 < conflict.length then betterCore env assum conflict
    else pure conflict
  if 1 < conflict.length then
    let r ← oneMinimize env conflict 1000
    return r.2
  else return conflict

end Minimize

section Cores

def lightenLit (minWeight : Int) (lit : Int) (s : EvalMaxSAT K) : EvalMaxSAT K :=
  let s : EvalMaxSAT K := { s with
    mapWeight2Assum := s.mapWeight2Assum.eraseLit (u64 (s.weight lit)) lit
    poids := s.poids.add lit (i64 (-minWeight)) }
  if s.weight lit = 0 then
    if (s.cardOf lit.natAbs).isSome then { s with litToRelax := s.litToRelax ++ [lit] } else s
  else { s with mapWeight2Assum := s.mapWeight2Assum.insertLit (u64 (s.weight lit)) lit }

/-- Step 3 of the treatment of a core: its literals lose the weight of the lightest, and
its cardinality is put off. -/
def splitCore (minWeightToConsider : Nat) (assum : OSet Int) (conflict : Clause)
    (s : EvalMaxSAT K) : OSet Int × EvalMaxSAT K :=
  let minWeight := minWeightFrom (2 ^ 63 - 1) s conflict
  let (assum, s) := conflict.foldl (fun (assum, s) lit =>
    let s := lightenLit minWeight lit s
    (if u64 (s.weight lit) < minWeightToConsider then assum.erase lit else assum, s)) (assum, s)
  (assum, { s with
    cardToAdd := s.cardToAdd ++ [(conflict.map (fun l => -l), u64 minWeight)]
    cost := u64 (s.cost + minWeight) })

def insertIfHeavy (minWeightToConsider : Nat) (newLit : Option Int) (assum : OSet Int)
    (s : EvalMaxSAT K) : OSet Int :=
  match newLit with
  | none => assum
  | some lit => if minWeightToConsider ≤ u64 (s.weight lit) then assum.insert lit else assum

/-- The loop over `_litToRelax`, with its `clear`. -/
def relaxPending (minWeightToConsider : Nat) (assum : OSet Int) (s : EvalMaxSAT K) :
    OSet Int × EvalMaxSAT K :=
  let (assum, s) := s.litToRelax.foldl (fun (assum, s) lit =>
    let (newLit, s) := s.relax lit
    (insertIfHeavy minWeightToConsider newLit assum s, s)) (assum, s)
  (assum, { s with litToRelax := [] })

/-- The loop over `_cardToAdd`, with its `clear`. -/
def addPendingCards (minWeightToConsider : Nat) (assum : OSet Int) (s : EvalMaxSAT K) :
    OSet Int × EvalMaxSAT K :=
  let (assum, s) := s.cardToAdd.foldl (fun (assum, s) c =>
    let (newLit, s) := s.addCard c.1 c.2
    (insertIfHeavy minWeightToConsider newLit assum s, s)) (assum, s)
  (assum, { s with cardToAdd := [] })

/-- `while(_cardToAdd.size())`: one cardinality leaves the queue. -/
def addFrontCard (minWeightToConsider : Nat) (assum : OSet Int) (s : EvalMaxSAT K) :
    OSet Int × EvalMaxSAT K :=
  match s.cardToAdd with
  | [] => (assum, s)
  | c :: rest =>
    let (newLit, s) := s.addCard c.1 c.2
    (insertIfHeavy minWeightToConsider newLit assum s, { s with cardToAdd := rest })

end Cores

/-- `assert( assum == initAssum(minWeightToConsider) )`. -/
def assertAssum (minWeightToConsider : Nat) (assum : OSet Int) : Program K Unit :=
  .act (.assums minWeightToConsider assum.elems) fun s => ((), s)

def hardenAndAdapt (minWeightToConsider : Nat) (assum : OSet Int) : Program K (OSet Int) := do
  let (nbHarden, assum) ← harden assum
  if nbHarden = 0 then return assum
  let found ← adapt_am1_VeryFastHeuristic env
  let s ← .read
  if found = 0 then return assum
  return s.initAssum minWeightToConsider

/-- The local optimisation of the model just found. -/
def improveBound (lo : LocalOptimizer2) (minWeightToConsider : Nat) (assum : OSet Int) :
    Program K (OSet Int) := do
  let s ← .read
  if s.ubStrategy ∧ s.toOptimize then
    let (curCost, curSolution) ← lo.optimize env s.solver.getSolution
    let s ← .read
    if curCost < s.solutionCost then
      .act (.report curCost) fun s => ((), s)
      .act .bound fun s => ((), { s with solutionCost := curCost, solution := curSolution })
      hardenAndAdapt env minWeightToConsider assum
    else return assum
  else return assum

structure Stratum where
  minWeightToConsider : Nat
  assum : OSet Int

/-- How the inner loop ends: `solve` returns, or the outer loop goes on. -/
inductive Leave where
  | ret (result : Bool)
  | brk (st : Stratum)

/-- The inner loop after an unsatisfiable answer. -/
def treatCore (st : Stratum) : Program K (Bool ⊕ Stratum) := do
  let conflict ← getConflict st.assum
  let s ← .read
  if conflict.length = 0 then return .inl (decide (s.solutionCost ≠ maxWeight))
  let conflict ← findCore env st.assum conflict
  let s ← .read
  if conflict.length = 0 then return .inl (decide (s.solutionCost ≠ maxWeight))
  let assum ← .act .core (splitCore st.minWeightToConsider st.assum conflict)
  let s ← .read
  if s.cost = s.solutionCost then return .inl true
  let top := (s.mapWeight2Assum.last?.map Prod.fst).getD 0
  if u64 ((s.solutionCost : Int) - s.cost) ≤ top then
    let assum ← hardenAndAdapt env st.minWeightToConsider assum
    return .inr { st with assum := assum }
  else return .inr { st with assum := assum }

/-- The inner loop after a satisfiable answer: `inr` goes on in the inner loop, `inl`
breaks out of it. -/
def treatModel (lo : LocalOptimizer2) (st : Stratum) : Program K (Stratum ⊕ Stratum) := do
  let s ← .read
  if s.litToRelax ≠ [] then
    let assum ← .act .relax (relaxPending st.minWeightToConsider st.assum)
    assertAssum st.minWeightToConsider assum
    return .inr { st with assum := assum }
  else
    let assum ← improveBound env lo st.minWeightToConsider st.assum
    let assum ← .loop (fun assum => do
      let s ← .read
      if s.cardToAdd = [] then return .inr assum
      let assum ← .act .card (addFrontCard st.minWeightToConsider assum)
      return .inl assum) assum
    return .inl { st with assum := assum }

/-- The limited call at the end of the inner loop. -/
def limitedSat (assum : OSet Int) : Program K (Option Bool) := do
  let s ← .read
  if s.mapWeight2Assum.size ≤ 1 then solverSolveLimited env assum.elems .time 0
  else
    let r ← solverSolve env assum.elems
    return some r

/-- The body of the inner loop on an answer: `inl` leaves the loop. -/
def treatAnswer (lo : LocalOptimizer2) (result : Option Bool) (st : Stratum) :
    Program K (Leave ⊕ Stratum) := do
  match result with
  | some false => do
    match ← treatCore env st with
    | .inl b => return .inl (.ret b)
    | .inr st => return .inr st
  | some true => do
    match ← treatModel env lo st with
    | .inl st => return .inl (.brk st)
    | .inr st => return .inr st
  | none => do
    let s ← .read
    return .inl (.brk ⟨1, s.initAssum 1⟩)

/-- The end of the body: the next limited call, where cardinalities are delayed. -/
def nextAnswer (x : Leave ⊕ Stratum) : Program K ((Option Bool × Stratum) ⊕ Leave) := do
  match x with
  | .inl leave => return .inr leave
  | .inr st => do
    let s ← .read
    if s.delayStrategy = false then return .inr (.brk st)
    let result ← limitedSat env st.assum
    return .inl (result, st)

/-- The loop entered on an unsatisfiable answer of the full call. -/
def innerLoop (lo : LocalOptimizer2) (st : Stratum) : Program K Leave :=
  .loop (fun (result, st) => do
    let x ← treatAnswer env lo result st
    nextAnswer env x) (some false, st)

def mainRound (lo : LocalOptimizer2) (st : Stratum) : Program K (Stratum ⊕ Bool) := do
  let s ← .read
  if s.solutionCost ≤ s.cost then return .inr true
  assertAssum st.minWeightToConsider st.assum
  if ← solverSolve env st.assum.elems then
    if st.minWeightToConsider = 1 then
      .act .bound fun s =>
        ((), { s with solutionCost := s.cost, solution := s.solver.getSolution })
      return .inr true
    let minWeight ← chooseNextMinWeight env st.minWeightToConsider
    let s ← .read
    return .inl ⟨minWeight, s.initAssum minWeight⟩
  else
    match ← innerLoop env lo st with
    | .ret b => return .inr b
    | .brk st => do
      let assum ← .act .relax (relaxPending st.minWeightToConsider st.assum)
      let assum ← .act .card (addPendingCards st.minWeightToConsider assum)
      return .inl { st with assum := assum }

/-- `solve` from the point where the weights are handed to the local optimizer. -/
def mainLoop : Program K Bool := do
  let s ← .read
  let lo : LocalOptimizer2 := ⟨s.poids, s.cost⟩
  let top := (s.mapWeight2Assum.last?.map Prod.fst).getD 0
  let minWeight ← chooseNextMinWeight env (u64 (top + 1))
  let s ← .read
  .loop (mainRound env lo) ⟨minWeight, s.initAssum minWeight⟩

/-- `solve` up to that point, once the bound is reset; `some` when it returns before. -/
def prologue : Program K (Option Bool) := do
  let _ ← .act .relax (relaxPending 0 OSet.empty)
  let _ ← .act .card (addPendingCards 0 OSet.empty)
  let _ ← adapt_am1_exact env
  let _ ← adapt_am1_FastHeuristicV7 env
  let s ← .read
  if s.solutionCost ≤ s.cost then return some true
  if s.mapWeight2Assum.size = 0 then
    if ← solverSolve env [] then
      .act .bound fun s =>
        ((), { s with solutionCost := s.cost, solution := s.solver.getSolution })
      return some true
    else return some false
  let (nbHarden, _) ← harden OSet.empty
  if nbHarden = 0 then return none
  let found ← adapt_am1_VeryFastHeuristic env
  let s ← .read
  if found ≠ 0 ∧ s.solutionCost ≤ s.cost then return some true
  return none

/-- The state where `solve` begins, and the one it leaves. -/
def started (s : EvalMaxSAT K) : EvalMaxSAT K :=
  { s with startSolve := true, solutionCost := maxWeight }

def stopped (s : EvalMaxSAT K) : EvalMaxSAT K := { s with startSolve := false }

def solve : Program K Bool := do
  .act .start fun s => ((), s.started)
  let early ← prologue env
  let result ← match early with
    | some b => pure b
    | none => mainLoop env
  .act .stop fun s => ((), s.stopped)
  return result

end EvalMaxSAT
end EvalMaxSat
