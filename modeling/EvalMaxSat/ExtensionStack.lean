import EvalMaxSat.Literals

/-!
The layer of the SAT library between its interface and its search: the stack of the clauses that
simplifications took away, with the literals that repair a solution, and the two functions that
read it. Literals are external ones throughout; a function that reads beyond an end of the stack
has no result.
-/
namespace EvalMaxSat
open Literals

namespace Cadical

section Marks

def elit2ulit (elit : Int) : Nat := 2 * (elit.natAbs - 1) + if elit < 0 then 1 else 0

def marked (map : List Bool) (elit : Int) : Bool := map.getD (elit2ulit elit) false

def mark (map : List Bool) (elit : Int) : List Bool :=
  (map ++ List.replicate (elit2ulit elit + 1 - map.length) false).set (elit2ulit elit) true

end Marks

structure External where
  max_var : Nat
  vals : List Bool
  assumptions : List Int
  extended : Bool
  extension : List Int
  witness : List Bool
  tainted : List Bool
  /-- The clauses of the internal solver. -/
  clauses : Cnf
  deriving DecidableEq, Repr

structure RestoreOptions where
  restoreall : Nat
  restoreflush : Bool
  deriving DecidableEq, Repr

/-- Read on to a zero: what is before it and what is behind it. -/
def untilZero : List Int → Option (List Int × List Int)
  | [] => none
  | elit :: p => if elit = 0 then some ([], p) else (untilZero p).map fun r => (elit :: r.1, r.2)

theorem untilZero_shorter {p : List Int} {r : List Int × List Int} (read : untilZero p = some r) :
    r.2.length < p.length := by
  induction p generalizing r with
  | nil => cases read
  | cons elit p ih =>
    unfold untilZero at read
    split at read
    · cases read
      exact Nat.lt_succ_self _
    · obtain ⟨s, rest, same⟩ := Option.map_eq_some_iff.mp read
      rw [← same]
      exact Nat.lt_succ_of_lt (@ih s rest)

namespace External

def new : External := ⟨0, [], [], false, [], [], [], []⟩

def init (new_max_var : Nat) (e : External) : External :=
  if new_max_var ≤ e.max_var then e else { e with max_var := new_max_var }

def internalize (elit : Int) (e : External) : External :=
  if elit = 0 then e
  else
    let e := e.init elit.natAbs
    if !marked e.tainted elit && marked e.witness (-elit) then
      { e with tainted := mark e.tainted elit }
    else e

/-- `add` for each literal of the clause, and for the zero behind them. -/
def addClause (c : Clause) (e : External) : External :=
  let e := c.foldl (fun e elit => e.internalize elit) { e with extended := false }
  { e with clauses := e.clauses ++ [c] }

def assume (elit : Int) (e : External) : External :=
  internalize elit { e with extended := false, assumptions := e.assumptions ++ [elit] }

def reset_assumptions (e : External) : External := { e with assumptions := [] }

section Pushing

def push_zero (e : External) : External := { e with extension := e.extension ++ [0] }

def push_clause_literal (e : External) (elit : Int) : External :=
  { e with extension := e.extension ++ [elit] }

def push_witness_literal (e : External) (elit : Int) : External :=
  { e with
    extension := e.extension ++ [elit]
    witness := if marked e.witness elit then e.witness else mark e.witness elit }

def push_clause (c : Clause) (e : External) : External := c.foldl push_clause_literal e.push_zero

/-- `push_clause_on_extension_stack` with a pivot. -/
def push_pivot_clause (c : Clause) (pivot : Int) (e : External) : External :=
  (e.push_zero.push_witness_literal pivot).push_clause c

def push_binary_clause (pivot other : Int) (e : External) : External :=
  (((e.push_zero.push_witness_literal pivot).push_zero).push_clause_literal pivot).push_clause_literal
    other

/-- A clause with any number of witness literals, as `condition` pushes it. -/
def push_entry (autarky : List Int) (c : Clause) (e : External) : External :=
  (autarky.foldl push_witness_literal e.push_zero).push_clause c

theorem push_pivot_entry (c : Clause) (pivot : Int) (e : External) :
    push_pivot_clause c pivot e = push_entry [pivot] c e := rfl

theorem push_binary_entry (pivot other : Int) (e : External) :
    push_binary_clause pivot other e = push_entry [pivot] [pivot, other] e := rfl

end Pushing

section Extending

def ival (max_var : Nat) (vals : List Bool) (elit : Int) : Int :=
  let res : Int :=
    if max_var < elit.natAbs then -1
    else if vals.length ≤ elit.natAbs then -1
    else if vals.getD elit.natAbs false then elit.natAbs else -elit.natAbs
  if elit < 0 then -res else res

def setVal (vals : List Bool) (idx : Nat) (b : Bool) : List Bool :=
  (vals ++ List.replicate (idx + 1 - vals.length) false).set idx b

/-- The first loop of `extend`; `value` is the value of a variable that is in use. -/
def copyVals (value : Nat → Option Bool) (e : External) : List Bool :=
  (List.range' 1 e.max_var).foldl (fun vals i => (value i).elim vals (setVal vals i)) e.vals

def flip (max_var : Nat) (vals : List Bool) (lit : Int) : List Bool :=
  if ival max_var vals lit < 0 then setVal vals lit.natAbs (!vals.getD lit.natAbs false) else vals

/-- The second loop of `extend`, from the end of the stack on. -/
def extendLoop (max_var : Nat) (i : List Int) (vals : List Bool) : Option (List Bool) :=
  if i = [] then some vals
  else
    match _clauseRead : untilZero i with
    | none => none
    | some (clause, i₁) =>
      match _witnessRead : untilZero i₁ with
      | none => none
      | some (witness, i₂) =>
        if clause.any fun lit => 0 < ival max_var vals lit then extendLoop max_var i₂ vals
        else extendLoop max_var i₂ (witness.foldl (flip max_var) vals)
termination_by i.length
decreasing_by
  all_goals
    have first := untilZero_shorter _clauseRead
    have second := untilZero_shorter _witnessRead
    dsimp only at first second
    omega

def extend (value : Nat → Option Bool) (e : External) : Option External := do
  let vals ← extendLoop e.max_var e.extension.reverse (e.copyVals value)
  return { e with vals := vals, extended := true }

/-- The checks of `check_satisfiable`, which find no fault with a value that may be relied on. -/
def check_assignment (original : Cnf) (e : External) : Bool :=
  ((List.range' 1 e.max_var).all fun idx =>
      ival e.max_var e.vals idx ≠ 0 && ival e.max_var e.vals idx = -ival e.max_var e.vals (-idx)) &&
    original.all fun c => c.any fun lit => 0 < ival e.max_var e.vals lit

def check_assumptions_satisfied (e : External) : Bool :=
  e.assumptions.all fun lit => 0 < ival e.max_var e.vals lit

end Extending

section Restoring

def restore_clause (c : Clause) (e : External) : External :=
  let e := c.foldl (fun e elit => e.internalize elit) e
  { e with clauses := e.clauses ++ [c] }

/-- The loop of `restore_clauses`. `p` is what is still to be read of the stack, and `q` what was
written of it again. -/
def restoreLoop (opts : RestoreOptions) (fixed : Cnf → Int → Bool) :
    List Int → List Int → External → Option (List Int × External)
  | [], q, e => some (q, e)
  | zero :: p, q, e =>
    match _witnessRead : untilZero p with
    | none => none
    | some (witness, p) =>
      let clause := p.takeWhile (· ≠ 0)
      let satisfied := opts.restoreflush && clause.any (fixed e.clauses)
      if satisfied || witness.any (fun elit => marked e.tainted (-elit)) || opts.restoreall ≠ 0 then
        restoreLoop opts fixed (p.dropWhile (· ≠ 0)) q
          (if satisfied then e else e.restore_clause clause)
      else restoreLoop opts fixed (p.dropWhile (· ≠ 0)) (q ++ zero :: (witness ++ 0 :: clause)) e
termination_by p => p.length
decreasing_by
  all_goals
    have first := untilZero_shorter _witnessRead
    have second := (List.dropWhile_suffix (l := p) fun x : Int => decide (x ≠ 0)).length_le
    simp only [List.length_cons] at *
    omega

/-- The last loop of `restore_clauses`, from the end of the stack on. -/
def remark (p : List Int) (map : List Bool) : Option (List Bool) :=
  if p = [] then some map
  else
    match _clauseRead : untilZero p with
    | none => none
    | some (_, p₁) =>
      match _witnessRead : untilZero p₁ with
      | none => none
      | some (witness, p₂) => remark p₂ (witness.foldl mark map)
termination_by p.length
decreasing_by
  have first := untilZero_shorter _clauseRead
  have second := untilZero_shorter _witnessRead
  dsimp only at first second
  omega

def restore_clauses (opts : RestoreOptions) (fixed : Cnf → Int → Bool) (e : External) :
    Option External := do
  let (q, e) ← restoreLoop opts fixed e.extension [] e
  let map ← remark q.reverse []
  return { e with extension := q, tainted := [], witness := map }

/-- `restore_clauses` of the internal solver, which a solve begins with. -/
def internal_restore (opts : RestoreOptions) (fixed : Cnf → Int → Bool) (e : External) :
    Option External :=
  if opts.restoreall ≤ 1 ∧ e.tainted = [] then some e else e.restore_clauses opts fixed

end Restoring

end External
end Cadical
end EvalMaxSat
