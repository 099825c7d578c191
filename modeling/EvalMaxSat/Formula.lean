import EvalMaxSat.SatSolver
import EvalMaxSat.Totalizer

/-!
The state of `EvalMaxSAT` and the member functions that neither loop without bound nor
ask the back end: the representation of the formula and its updates.
-/
namespace EvalMaxSat
open Literals OrderedContainers

structure LitCard where
  card : Nat
  atMost : Nat
  initialWeight : Nat
  deriving DecidableEq, Repr

/-- A cardinality object shared by the `LitCard`s that point to it. `initialWeight` and
`level` record for the specification what it was created with and the last level that was
given a weight; no function reads them. -/
structure CardObject where
  card : CardIncremental_Lazy
  initialWeight : Nat
  level : Nat
  deriving DecidableEq, Repr

structure EvalMaxSAT (K : Type) where
  solver : Solver_cadical K
  poids : WeightVector
  mapWeight2Assum : WeightMap
  cost : Nat
  mapAssum2Card : List (Option LitCard)
  cards : List CardObject
  cardToAdd : List (Clause × Nat)
  litToRelax : List Int
  startSolve : Bool
  solution : List Bool
  solutionCost : Nat
  delayStrategy : Bool
  multiSolveStrategy : Bool
  ubStrategy : Bool
  toOptimize : Bool
  isIncremental : Bool
  nInputVars : Nat

namespace WeightMap

/-- `m[w].insert(lit)`. -/
def insertLit (m : WeightMap) (w : Nat) (lit : Int) : WeightMap :=
  m.modify w (fun b => (b.getD OSet.empty).insert lit)

/-- `m[w].erase(lit)`. -/
def eraseLit (m : WeightMap) (w : Nat) (lit : Int) : WeightMap :=
  m.modify w (fun b => (b.getD OSet.empty).erase lit)

end WeightMap

namespace EvalMaxSAT
variable {K : Type}

def fresh (core : K) : EvalMaxSAT K where
  solver := ⟨core, 0, [], .unknown⟩
  poids := ⟨[0]⟩
  mapWeight2Assum := OMap.empty
  cost := 0
  mapAssum2Card := [none]
  cards := []
  cardToAdd := []
  litToRelax := []
  startSolve := false
  solution := []
  solutionCost := maxWeight
  delayStrategy := true
  multiSolveStrategy := true
  ubStrategy := true
  toOptimize := true
  isIncremental := false
  nInputVars := 0

def weight (s : EvalMaxSAT K) (lit : Int) : Int := s.poids.get lit

def cardOf (s : EvalMaxSAT K) (var : Nat) : Option LitCard := s.mapAssum2Card.getD var none

def isWeighted (s : EvalMaxSAT K) : Bool := 1 < s.mapWeight2Assum.size

def nVars (s : EvalMaxSAT K) : Nat := s.poids.size - 1

def setNInputVars (n : Nat) (s : EvalMaxSAT K) : EvalMaxSAT K := { s with nInputVars := n }

def unactivateDelayStrategy (s : EvalMaxSAT K) : EvalMaxSAT K := { s with delayStrategy := false }

def unactivateMultiSolveStrategy (s : EvalMaxSAT K) : EvalMaxSAT K :=
  { s with multiSolveStrategy := false }

def unactivateUBStrategy (s : EvalMaxSAT K) : EvalMaxSAT K := { s with ubStrategy := false }

def disableOptimize (s : EvalMaxSAT K) : EvalMaxSAT K := { s with toOptimize := false }

def setIncremental (value : Bool) (s : EvalMaxSAT K) : EvalMaxSAT K := { s with isIncremental := value }

def getCost (s : EvalMaxSAT K) : Nat := s.solutionCost

/-- `getValue`; `none` when it reads past the end of `solution`. -/
def getValue (lit : Int) (s : EvalMaxSAT K) : Option Bool :=
  if s.solution.length < lit.natAbs then some false
  else if 0 < lit then s.solution[lit.natAbs]?
  else if lit < 0 then s.solution[(-lit).natAbs]?.map not
  else some false

/-- The source returns an `int`. Here the numbers go on behind the largest `int`, and what is said
of `int`s bounds the count of the back end. -/
def newVar (s : EvalMaxSAT K) : Int × EvalMaxSAT K :=
  let (var, solver) := s.solver.newVar
  (var, { s with
    poids := s.poids.pushBack 0
    mapAssum2Card := s.mapAssum2Card ++ [none]
    solver := solver })

/-- What the totalizer calls. Its clauses have at least two literals, so that the branch
of `addClause` for weighted units is never the one taken. -/
instance : ClauseSink (EvalMaxSAT K) where
  newVar := newVar
  addClause := fun c s => { s with solver := s.solver.addClause c }

def newSoftVar (value : Bool) (weight : Int) (s : EvalMaxSAT K) : Int × EvalMaxSAT K :=
  let (value, weight) := if weight < 0 then (!value, i64 (-weight)) else (value, weight)
  let sign : Int := if value then 1 else -1
  let poids := s.poids.pushBack (i64 (weight * sign))
  let (var, solver) := s.solver.newVar
  (var, { s with
    poids := poids
    mapAssum2Card := s.mapAssum2Card ++ [none]
    mapWeight2Assum := s.mapWeight2Assum.insertLit (u64 weight) (sign * ((poids.size : Int) - 1))
    solver := solver })

/-- Give the next level of a cardinality its weight. -/
def activate (forCard : Int) (e : LitCard) (s : EvalMaxSAT K) : EvalMaxSAT K :=
  let poids := s.poids.set forCard (i64 e.initialWeight)
  { s with
    mapAssum2Card := s.mapAssum2Card.set forCard.natAbs (some e)
    poids := poids
    mapWeight2Assum := s.mapWeight2Assum.insertLit (u64 (poids.get forCard)) forCard
    cards := s.cards.modify e.card (fun o => { o with level := e.atMost }) }

/-- The level of the cardinality of `e` that follows `e` becomes soft, if there is one. -/
def nextLevel (e : LitCard) (o : CardObject) (s : EvalMaxSAT K) : Option Int × EvalMaxSAT K :=
  let (forCard, card, s) := o.card.atMost (e.atMost + 1) s
  let s := { s with cards := s.cards.set e.card { o with card := card } }
  if forCard ≠ 0 ∧ s.cardOf forCard.natAbs = none then
    (some forCard, s.activate forCard { e with atMost := e.atMost + 1 })
  else (none, s)

def resetEntry (lit : Int) (s : EvalMaxSAT K) : EvalMaxSAT K :=
  if s.weight lit = 0 then { s with mapAssum2Card := s.mapAssum2Card.set lit.natAbs none } else s

/-- If a soft variable is not soft anymore and is the output of a cardinality, the next
level of that cardinality becomes soft. -/
def relax (lit : Int) (s : EvalMaxSAT K) : Option Int × EvalMaxSAT K :=
  match s.cardOf lit.natAbs with
  | none => (none, s)
  | some e =>
    match s.cards[e.card]? with
    | none => (none, s)
    | some o =>
      let (newSoftVar, s) := s.nextLevel e o
      (newSoftVar, s.resetEntry lit)

/-- The weighted-unit part of a hard `addClause`. -/
def clearUnit (lit : Int) (s : EvalMaxSAT K) : EvalMaxSAT K :=
  if s.weight lit = 0 then s
  else if s.weight lit < 0 then
    let s := { s with
      mapWeight2Assum := s.mapWeight2Assum.eraseLit (u64 (s.weight (-lit))) (-lit)
      cost := u64 (s.cost + s.weight (-lit)) }
    let s := (s.relax lit).2
    { s with poids := s.poids.set lit 0 }
  else
    { s with
      mapWeight2Assum := s.mapWeight2Assum.eraseLit (u64 (s.weight lit)) lit
      poids := s.poids.set lit 0 }

/-- `addClause(clause)`. -/
def addHardClause (clause : Clause) (s : EvalMaxSAT K) : EvalMaxSAT K :=
  let s := match clause with
    | [lit] => s.clearUnit lit
    | _ => s
  { s with solver := s.solver.addClause clause }

def newVars : Nat → EvalMaxSAT K → EvalMaxSAT K
  | 0, s => s
  | n + 1, s => newVars n s.newVar.2

/-- The literal of `addWeight` already has a weight: add to it, `cost` taking what the two
polarities of the variable have in common. -/
def shiftWeight (lit weight : Int) (s : EvalMaxSAT K) : EvalMaxSAT K :=
  if 0 < s.weight lit then
    { s with
      mapWeight2Assum := s.mapWeight2Assum.eraseLit (u64 (s.weight lit)) lit
      poids := s.poids.add lit weight }
  else
    { s with
      mapWeight2Assum := s.mapWeight2Assum.eraseLit (u64 (s.weight (-lit))) (-lit)
      cost := u64 (s.cost + min weight (s.weight (-lit)))
      poids := s.poids.add lit weight }

/-- The end of `addWeight`: put the polarity that kept a weight in its bucket. -/
def reindex (lit : Int) (s : EvalMaxSAT K) : EvalMaxSAT K :=
  if s.weight lit = 0 then (s.relax lit).2
  else if 0 < s.weight lit then
    { s with mapWeight2Assum := s.mapWeight2Assum.insertLit (u64 (s.weight lit)) lit }
  else
    { s with mapWeight2Assum :=
        s.mapWeight2Assum.insertLit (u64 (i64 (-(s.weight lit)))) (-lit) }

def addPositiveWeight (lit weight : Int) (s : EvalMaxSAT K) : EvalMaxSAT K :=
  if s.weight lit = 0 then
    { s with
      poids := s.poids.set lit weight
      mapWeight2Assum := s.mapWeight2Assum.insertLit (u64 weight) lit }
  else (s.shiftWeight lit weight).reindex lit

def addWeight (lit weight : Int) (s : EvalMaxSAT K) : EvalMaxSAT K :=
  let s := newVars (lit.natAbs + 1 - s.poids.size) s
  if weight < 0 then s.addPositiveWeight (-lit) (i64 (-weight))
  else s.addPositiveWeight lit weight

/-- `addClause(clause, w)` past its guards. -/
def addSoftClause (clause : Clause) (w : Int) (s : EvalMaxSAT K) : Int × EvalMaxSAT K :=
  match clause with
  | [] => (0, { s with cost := u64 (s.cost + w) })
  | [lit] => (0, s.addWeight lit w)
  | _ =>
    if 0 < w then
      let (softVar, s) := s.newSoftVar true w
      (softVar, s.addHardClause (clause ++ [-softVar]))
    else
      let (softVar, s) := s.newSoftVar true (i64 (-w))
      (softVar, clause.foldl (fun s lit => s.addHardClause [-softVar, lit]) s)

/-- `addClause`; `none` when the process exits because a soft clause comes after a solve
without the incremental mode. -/
def addClause (clause : Clause) (w : Option Int) (s : EvalMaxSAT K) :
    Option (Int × EvalMaxSAT K) :=
  match w with
  | none => some (0, s.addHardClause clause)
  | some w =>
    if w = 0 then some (0, s)
    else if ¬ s.startSolve ∧ s.solutionCost ≠ maxWeight ∧ ¬ s.isIncremental then none
    else some (s.addSoftClause clause w)

def initAssum (minWeightToConsider : Nat) (s : EvalMaxSAT K) : OSet Int :=
  (s.mapWeight2Assum.entries.reverse.takeWhile (fun e => minWeightToConsider ≤ e.1)).foldl
    (fun assum e => e.2.elems.foldl (fun assum lit => assum.insert lit) assum) OSet.empty

/-- A pending cardinality becomes a totalizer whose first level is soft. -/
def addCard (clause : Clause) (w : Nat) (s : EvalMaxSAT K) : Option Int × EvalMaxSAT K :=
  let (newAssumForCard, card, s) := (CardIncremental_Lazy.mk' clause 1).atMost 1 s
  if newAssumForCard ≠ 0 then
    (some newAssumForCard, { s with
      poids := s.poids.set newAssumForCard (i64 w)
      mapWeight2Assum := s.mapWeight2Assum.insertLit w newAssumForCard
      mapAssum2Card := s.mapAssum2Card.set newAssumForCard.natAbs (some ⟨s.cards.length, 1, w⟩)
      cards := s.cards ++ [⟨card, w, 1⟩] })
  else (none, s)

end EvalMaxSAT
end EvalMaxSat
