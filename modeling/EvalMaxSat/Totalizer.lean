import EvalMaxSat.Literals

/-!
`LazyVariable` and `CardIncremental_Lazy`: the totalizer tree whose outputs and
clauses come into being when they are first asked for. A pointer from an implicant
to an output of a child is the side of the child and the index of the output.
-/
namespace EvalMaxSat
open Literals

/-- What the totalizer asks of the solver it is built on. -/
class ClauseSink (τ : Type) where
  newVar : τ → Int × τ
  addClause : Clause → τ → τ

inductive Side where
  | left
  | right
  deriving DecidableEq, Repr

abbrev Child := Side × Nat

structure LazyVariable where
  var : Option Int
  impliquants : List (List Child)
  deriving DecidableEq, Repr

def LazyVariable.fresh : LazyVariable := ⟨none, []⟩

def LazyVariable.ofInt (lit : Int) : LazyVariable := ⟨some lit, []⟩

def LazyVariable.addImpliquant (v : LazyVariable) (imp : List Child) : LazyVariable :=
  { v with impliquants := v.impliquants ++ [imp] }

inductive TotTree where
  | leaf (lazyVar : LazyVariable)
  | node (nofInput : Nat) (lazyVars : List LazyVariable) (left right : TotTree)
  deriving DecidableEq, Repr

namespace TotTree

def lazyVars : TotTree → List LazyVariable
  | .leaf v => [v]
  | .node _ vs _ _ => vs

def nofInput : TotTree → Nat
  | .leaf _ => 1
  | .node n _ _ _ => n

def height : TotTree → Nat
  | .leaf _ => 0
  | .node _ _ l r => max l.height r.height + 1

/-- The literals at the leaves, from left to right: `getClause`. -/
def getClause : TotTree → List Int
  | .leaf v => [v.var.getD 0]
  | .node _ _ l r => l.getClause ++ r.getClause

end TotTree

def u32 (n : Nat) : Nat := n % 2 ^ 32

def addImpliquants (vs : List LazyVariable) (calls : List (Nat × List Child)) :
    List LazyVariable :=
  calls.foldl (fun ws c => ws.modify c.1 (·.addImpliquant c.2)) vs

/-- The calls of `addImpliquant` made by `new_ua`, in order. -/
def newUaCalls (rhs aSize bSize : Nat) : List (Nat × List Child) :=
  (List.range (min rhs bSize)).map (fun j => (j, [(Side.right, j)])) ++
  (List.range (min rhs aSize)).map (fun i => (i, [(Side.left, i)])) ++
  (List.range (min rhs aSize)).flatMap (fun i =>
    (List.range (min (rhs - (i + 1)) bSize)).map
      (fun j => (i + j + 1, [(Side.left, i), (Side.right, j)])))

def newUa (ogVars : List LazyVariable) (rhs aSize bSize : Nat) : List LazyVariable :=
  addImpliquants ogVars (newUaCalls rhs aSize bSize)

/-- The calls of `addImpliquant` made by `increase_ua`, in order. The source's `i` and `j`
of the last loop are one-based, and its `j` starts at `max(last - i + 1, 1)`. -/
def increaseUaCalls (last rhs aSize bSize : Nat) : List (Nat × List Child) :=
  ((List.range (min rhs bSize)).filter (fun j => last ≤ j)).map
    (fun j => (j, [(Side.right, j)])) ++
  ((List.range (min rhs aSize)).filter (fun i => last ≤ i)).map
    (fun i => (i, [(Side.left, i)])) ++
  (List.range (min rhs aSize)).flatMap (fun i =>
    ((List.range (min (rhs - (i + 1)) bSize)).filter
      (fun (j : Nat) => max ((last : Int) - ((i : Int) + 1) + 1) 1 ≤ (j : Int) + 1)).map
        (fun j => (i + j + 1, [(Side.left, i), (Side.right, j)])))

def increaseUa (ogVars : List LazyVariable) (aSize bSize rhs : Nat) : List LazyVariable :=
  addImpliquants (ogVars ++ List.replicate (rhs - ogVars.length) .fresh)
    (increaseUaCalls ogVars.length rhs aSize bSize)

namespace TotTree

/-- `increase`, where `rhs` is the successor of the new bound. -/
def increaseTo (rhs : Nat) : TotTree → TotTree
  | .leaf v => .leaf v
  | .node n vs l r =>
    let kmin := min rhs n
    if kmin ≤ vs.length then .node n vs l r
    else
      let l := l.increaseTo rhs
      let r := r.increaseTo rhs
      .node n (increaseUa vs l.lazyVars.length r.lazyVars.length kmin) l r

def increase (newBound : Nat) (t : TotTree) : TotTree := t.increaseTo (u32 (newBound + 1))

def join (rhs : Nat) (l r : TotTree) : TotTree :=
  let n := l.nofInput + r.nofInput
  let kmin := min rhs n
  .node n (newUa (List.replicate kmin .fresh) kmin l.lazyVars.length r.lazyVars.length) l r

/-- The queue of the constructor: two trees leave at the front, their join enters at the
back, until one is left. -/
def joinAll (rhs : Nat) : Nat → List TotTree → TotTree
  | fuel + 1, l :: r :: rest => joinAll rhs fuel (rest ++ [join rhs l r])
  | _, t :: _ => t
  | _, [] => .leaf .fresh

def buildTo (rhs : Nat) (clause : Clause) : TotTree :=
  joinAll rhs clause.length (clause.map (fun l => .leaf (.ofInt l)))

/-- The tree of the constructor, which counts as far as the successor of the bound. -/
def build (clause : Clause) (bound : Nat) : TotTree := buildTo (u32 (bound + 1)) clause

variable {τ : Type} [ClauseSink τ]

section Get

/-- A getter for the outputs of one child, threading that child and the solver. -/
abbrev Getter (τ : Type) := TotTree → Nat → τ → Int × TotTree × τ

def getChild (get : Getter τ) (c : Child) (l r : TotTree) (s : τ) :
    Int × TotTree × TotTree × τ :=
  match c.1 with
  | .left => let (x, l, s) := get l c.2 s; (x, l, r, s)
  | .right => let (x, r, s) := get r c.2 s; (x, l, r, s)

def getImplicant (get : Getter τ) : List Child → TotTree → TotTree → τ →
    Clause × TotTree × TotTree × τ
  | [], l, r, s => ([], l, r, s)
  | c :: cs, l, r, s =>
    let (x, l, r, s) := getChild get c l r s
    let (clause, l, r, s) := getImplicant get cs l r s
    (-x :: clause, l, r, s)

def addImplications (get : Getter τ) (var : Int) : List (List Child) → TotTree → TotTree → τ →
    TotTree × TotTree × τ
  | [], l, r, s => (l, r, s)
  | imp :: imps, l, r, s =>
    let (clause, l, r, s) := getImplicant get imp l r s
    addImplications get var imps l r (ClauseSink.addClause (clause ++ [var]) s)

/-- `LazyVariable::get` on output `i` of a tree of height at most the first argument. -/
def getAt : Nat → Getter τ
  | _, .leaf v, _, s => (v.var.getD 0, .leaf v, s)
  | 0, t, _, s => (0, t, s)
  | h + 1, .node n vs l r, i, s =>
    match vs[i]? with
    | none => (0, .node n vs l r, s)
    | some v =>
      match v.var, v.impliquants with
      | some x, _ => (x, .node n vs l r, s)
      | none, [[c]] =>
        let (x, l, r, s) := getChild (getAt h) c l r s
        (x, .node n (vs.set i { v with var := some x }) l r, s)
      | none, imps =>
        let (x, s) := ClauseSink.newVar s
        let (l, r, s) := addImplications (getAt h) x imps l r s
        (x, .node n (vs.set i { v with var := some x }) l r, s)

def get : Getter τ := fun t i s => getAt t.height t i s

end Get
end TotTree

structure CardIncremental_Lazy where
  nbLit : Nat
  bound : Nat
  tree : TotTree
  maxVars : Nat
  deriving DecidableEq, Repr

namespace CardIncremental_Lazy
variable {τ : Type} [ClauseSink τ]

def mk' (clause : Clause) (bound : Nat) : CardIncremental_Lazy :=
  ⟨clause.length, bound, TotTree.build clause bound, clause.length⟩

def size (c : CardIncremental_Lazy) : Nat := c.nbLit

/-- The bound of the tree for the new inputs is one less than the number of outputs, and
its successor is that number again, also where there are none. -/
def add (c : CardIncremental_Lazy) (clause : Clause) : CardIncremental_Lazy :=
  let tb := TotTree.buildTo c.tree.lazyVars.length clause
  { c with
    tree := TotTree.join c.tree.lazyVars.length c.tree tb
    maxVars := c.maxVars + clause.length }

/-- The literal that is true when at most `k` of the inputs are, or `0` when `k` bounds
nothing. Where `increase` is called `k` is below `_maxVars`, so that its successor does not
wrap. -/
def atMost (c : CardIncremental_Lazy) (k : Nat) (s : τ) : Int × CardIncremental_Lazy × τ :=
  if c.maxVars ≤ k then (0, c, s)
  else
    let tree := if c.tree.lazyVars.length ≤ k then c.tree.increaseTo (k + 1) else c.tree
    let (x, tree, s) := tree.get k s
    (-x, { c with tree := tree }, s)

end CardIncremental_Lazy
end EvalMaxSat
