import EvalMaxSat.ParseUtils
import EvalMaxSat.Formula

/-!
The loader and the checker of WCNF files. Both read the same lines; the loader creates variables
while it reads and puts the soft clauses off until the end.
-/
namespace EvalMaxSat
open Literals InputStreams InputStream

/-- What the loader asks of a `MAXSAT_SOLVER`; `addClause` may end the process. -/
class MaxSatSolver (S : Type) where
  nVars : S → Nat
  newVar : S → S
  addClause : Clause → Option Int → S → Except Complaint S
  setNInputVars : Nat → S → S

/-- What `addClause` prints before it exits. -/
def softTooLate : Complaint :=
  ⟨"c Error: You cannot add a soft clause after the first solve if the incremental mode is not activated.", none⟩

/-- What the SAT solver prints before it aborts. -/
def invalidLiteral : Complaint := ⟨"invalid literal '-2147483648'", none⟩

/-- The number behind the largest `int` is no variable: as an `int` it is the literal that the SAT
solver refuses. -/
def withinInt {K : Type} (s : EvalMaxSAT K) : Except Complaint (EvalMaxSAT K) :=
  if s.solver.nVar < 2 ^ 31 then .ok s else .error invalidLiteral

instance {K : Type} : MaxSatSolver (EvalMaxSAT K) where
  nVars := EvalMaxSAT.nVars
  newVar := fun s => s.newVar.2
  addClause := fun clause w s => (s.addClause clause w).elim (.error softTooLate) fun r => withinInt r.2
  setNInputVars := EvalMaxSAT.setNInputVars

open MaxSatSolver

/-- How the reading of a file ends: the process exits, the function returns `false` or it does
its work. -/
inductive FileEnd (α : Type) where
  | exits (complaint : Complaint)
  | refused (complaint : Option Complaint) (a : α)
  | done (a : α)
  deriving DecidableEq, Repr

/-- Why no line follows. -/
inductive Ending where
  | endOfFile
  | exits (complaint : Complaint)
  | refused (complaint : Complaint)
  deriving DecidableEq, Repr

/-- A line up to the point where its clause starts; `W` holds the weights. -/
inductive Line (W B : Type) where
  | stop (e : Ending)
  | comment (b : B)
  | header (top : W) (b : B)
  | weighted (w : W) (b : B)

def Line.rest {W B : Type} : Line W B → Option B
  | .stop _ => none
  | .comment b | .header _ b | .weighted _ b => some b

variable {B S W : Type} [InputStream B] [MaxSatSolver S]

def unexpected (b : B) : Complaint := ⟨"c PARSE ERROR! Unexpected char: ", peek b⟩

/-- What follows the `p` of the old format: the top weight, after the numbers of variables and
clauses. -/
def readHeader (weight : B → Except Complaint (W × B)) (b : B) : Line W B :=
  if nextIs (· == ' '.toNat) b then
    match eagerMatch ['w', 'c', 'n', 'f'] (skipWhitespace b) with
    | (false, b) => .stop (.refused (unexpected b))
    | (true, b) =>
      match parseInt b with
      | .error e => .stop (.exits e)
      | .ok (_, b) =>
        match parseInt b with
        | .error e => .stop (.exits e)
        | .ok (_, b) =>
          match weight b with
          | .error e => .stop (.exits e)
          | .ok (top, b) => .header top b
  else .stop (.refused (unexpected b))

def readLine (weight : B → Except Complaint (W × B)) (b : B) : Line W B :=
  let b := skipWhitespace b
  match peek b with
  | none => .stop .endOfFile
  | some c =>
    if c = 'c'.toNat then .comment (skipLine b)
    else if c = 'p'.toNat then readHeader weight (advance b)
    else
      match weight b with
      | .error e => .stop (.exits e)
      | .ok (w, b) => .weighted w b

section Progress
variable {b c : B} {w : W} {weight : B → Except Complaint (W × B)}

theorem readHeader_left (consumes : ∀ b w c, weight b = .ok (w, c) → left c < left b)
    (read : (readHeader weight b).rest = some c) : left c < left b := by
  unfold readHeader at read
  split at read
  · split at read
    · simp [Line.rest] at read
    · rename_i b₁ matched
      have first := skipWhitespace_left b
      have second := eagerMatch_left ['w', 'c', 'n', 'f'] (skipWhitespace b)
      rw [matched] at second
      dsimp only at second
      split at read
      · simp [Line.rest] at read
      · rename_i b₂ vars
        have third := parseInt_left vars
        split at read
        · simp [Line.rest] at read
        · rename_i b₃ clauses
          have fourth := parseInt_left clauses
          split at read
          · simp [Line.rest] at read
          · rename_i top b₄ weighed
            have fifth := consumes _ _ _ weighed
            simp only [Line.rest, Option.some.injEq] at read
            rw [← read]
            omega
  · simp [Line.rest] at read

theorem readLine_left (consumes : ∀ b w c, weight b = .ok (w, c) → left c < left b)
    (read : (readLine weight b).rest = some c) : left c < left b := by
  have first := skipWhitespace_left b
  unfold readLine at read
  dsimp only at read
  split at read
  · simp [Line.rest] at read
  · rename_i x next
    split at read
    · have some_char : nextIs (fun _ => true) (skipWhitespace b) = true := by rw [nextIs, next]; rfl
      have second := skipLine_left some_char
      simp only [Line.rest, Option.some.injEq] at read
      rw [← read]
      omega
    · split at read
      · have second := advance_left _ x next
        have third := readHeader_left consumes read
        omega
      · split at read
        · simp [Line.rest] at read
        · rename_i w' c' weighed
          have second := consumes _ _ _ weighed
          simp only [Line.rest, Option.some.injEq] at read
          rw [← read]
          omega

end Progress

section Clauses

/-- `readClause(in, lits)`. -/
def readClause (b : B) : Except Complaint (Clause × B) :=
  match _read : parseInt b with
  | .error e => .error e
  | .ok (lit, b) =>
    if lit = 0 then .ok ([], b)
    else
      match readClause b with
      | .error e => .error e
      | .ok (lits, b) => .ok (lit :: lits, b)
termination_by left b
decreasing_by exact parseInt_left _read

/-- `while( abs(lit) > solveur->nVars()) solveur->newVar();`. -/
def createVars (lit : Int) (s : S) : S := newVar^[lit.natAbs - nVars s] s

/-- `readClause(in, solveur)`. -/
def readClauseFor (s : S) (b : B) : Except Complaint ((Clause × S) × B) :=
  match _read : parseInt b with
  | .error e => .error e
  | .ok (lit, b) =>
    if lit = 0 then .ok (([], s), b)
    else
      match readClauseFor (createVars lit s) b with
      | .error e => .error e
      | .ok ((lits, s), b) => .ok ((lit :: lits, s), b)
termination_by left b
decreasing_by exact parseInt_left _read

variable {b c : B} {lits : Clause} {s t : S}

theorem readClause_left (read : readClause b = .ok (lits, c)) : left c ≤ left b := by
  induction h : left b using Nat.strongRecOn generalizing b lits c with
  | ind n ih =>
    rw [readClause] at read
    split at read
    · simp at read
    · rename_i lit b₁ first
      have less := parseInt_left first
      split at read
      · simp only [Except.ok.injEq, Prod.mk.injEq] at read
        rw [← read.2]
        omega
      · split at read
        · simp at read
        · rename_i lits₁ b₂ rest
          simp only [Except.ok.injEq, Prod.mk.injEq] at read
          have := ih (left b₁) (by omega) rest rfl
          rw [← read.2]
          omega

theorem readClauseFor_left (read : readClauseFor s b = .ok ((lits, t), c)) : left c ≤ left b := by
  induction h : left b using Nat.strongRecOn generalizing b lits s t c with
  | ind n ih =>
    rw [readClauseFor] at read
    split at read
    · simp at read
    · rename_i lit b₁ first
      have less := parseInt_left first
      split at read
      · simp only [Except.ok.injEq, Prod.mk.injEq] at read
        rw [← read.2]
        omega
      · split at read
        · simp at read
        · rename_i lits₁ s₁ b₂ rest
          simp only [Except.ok.injEq, Prod.mk.injEq] at read
          have := ih (left b₁) (by omega) rest rfl
          rw [← read.2]
          omega

theorem readClause_error {e : Complaint} (read : parseInt b = .error e) :
    readClause b = .error e := by
  rw [readClause]
  split
  · rename_i e' read'
    rw [read] at read'
    rw [Except.error.inj read']
  · rename_i lit c read'
    rw [read] at read'
    simp at read'

theorem readClause_zero (read : parseInt b = .ok (0, c)) : readClause b = .ok ([], c) := by
  rw [readClause]
  split
  · rename_i e read'
    rw [read] at read'
    simp at read'
  · rename_i lit c' read'
    rw [read] at read'
    simp only [Except.ok.injEq, Prod.mk.injEq] at read'
    rw [← read'.1, ← read'.2, if_pos rfl]

theorem readClause_lit {lit : Int} (read : parseInt b = .ok (lit, c)) (nonzero : lit ≠ 0) :
    readClause b = (readClause c).map fun r => (lit :: r.1, r.2) := by
  rw [readClause]
  split
  · rename_i e read'
    rw [read] at read'
    simp at read'
  · rename_i lit' c' read'
    rw [read] at read'
    simp only [Except.ok.injEq, Prod.mk.injEq] at read'
    rw [← read'.1, ← read'.2, if_neg nonzero]
    cases readClause c <;> rfl

theorem readClauseFor_eq (s : S) (b : B) : readClauseFor s b =
    (readClause b).map fun r => ((r.1, r.1.foldl (fun s lit => createVars lit s) s), r.2) := by
  induction h : left b using Nat.strongRecOn generalizing b s with
  | ind n ih =>
    rw [readClauseFor]
    split
    · rename_i e read
      rw [readClause_error read]
      rfl
    · rename_i lit c read
      have less := parseInt_left read
      split
      · rename_i zero
        rw [zero] at read
        rw [readClause_zero read]
        rfl
      · rename_i nonzero
        rw [readClause_lit read nonzero, ih (left c) (by omega) (createVars lit s) c rfl]
        cases readClause c <;> rfl

end Clauses

section Files

/-- The last loop of `parse`; the weights become signed. -/
def addSoftClauses : List (Clause × Nat) → S → FileEnd S
  | [], s => .done s
  | (clause, weight) :: softClauses, s =>
    match addClause clause (some (i64 weight)) s with
    | .error e => .exits e
    | .ok s => addSoftClauses softClauses s

/-- The loop of `parse`. -/
def parseLines (weightForHardClause : Nat) (softClauses : List (Clause × Nat)) (s : S) (b : B) :
    FileEnd S :=
  match _line : readLine parseWeight b with
  | .stop .endOfFile => addSoftClauses softClauses (setNInputVars (nVars s) s)
  | .stop (.exits e) => .exits e
  | .stop (.refused e) => .refused (some e) s
  | .comment b => parseLines weightForHardClause softClauses s b
  | .header top b => parseLines top softClauses s b
  | .weighted weight b =>
    match _clause : readClauseFor s b with
    | .error e => .exits e
    | .ok ((clause, s), b) =>
      if weightForHardClause ≤ weight then
        match addClause clause none s with
        | .error e => .exits e
        | .ok s => parseLines weightForHardClause softClauses s b
      else parseLines weightForHardClause (softClauses ++ [(clause, weight)]) s b
termination_by left b
decreasing_by
  · exact readLine_left (fun _ _ _ => parseWeight_left) (by rw [_line]; rfl)
  · exact readLine_left (fun _ _ _ => parseWeight_left) (by rw [_line]; rfl)
  · exact Nat.lt_of_le_of_lt (readClauseFor_left _clause)
      (readLine_left (fun _ _ _ => parseWeight_left) (by rw [_line]; rfl))
  · exact Nat.lt_of_le_of_lt (readClauseFor_left _clause)
      (readLine_left (fun _ _ _ => parseWeight_left) (by rw [_line]; rfl))

def parse (s : S) (b : B) : FileEnd S :=
  if peek b = none then .refused none s else parseLines maxWeight [] s b

/-- Whether a literal of the clause has its value in `result`, which grows where it is too short. -/
def satisfied (result : List Bool) : Clause → Bool × List Bool
  | [] => (false, result)
  | l :: lits =>
    let result := result ++ List.replicate (l.natAbs + 1 - result.length) false
    if decide (0 < l) = result.getD l.natAbs false then (true, result) else satisfied result lits

/-- The rest of the loop of `parse` after the start of a line. -/
def parseLine (weightForHardClause : Nat) (softClauses : List (Clause × Nat)) (s : S) :
    Line Nat B → FileEnd S
  | .stop .endOfFile => addSoftClauses softClauses (setNInputVars (nVars s) s)
  | .stop (.exits e) => .exits e
  | .stop (.refused e) => .refused (some e) s
  | .comment b => parseLines weightForHardClause softClauses s b
  | .header top b => parseLines top softClauses s b
  | .weighted weight b =>
    match readClauseFor s b with
    | .error e => .exits e
    | .ok ((clause, s), b) =>
      if weightForHardClause ≤ weight then
        match addClause clause none s with
        | .error e => .exits e
        | .ok s => parseLines weightForHardClause softClauses s b
      else parseLines weightForHardClause (softClauses ++ [(clause, weight)]) s b

theorem parseLines_eq (h : Nat) (soft : List (Clause × Nat)) (s : S) (b : B) :
    parseLines h soft s b = parseLine h soft s (readLine parseWeight b) := by
  rw [parseLines]
  split <;> rename_i line <;> rw [line, parseLine]
  split <;> rename_i clause <;> rw [clause]

end Files
end EvalMaxSat
