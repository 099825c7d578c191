import EvalMaxSat.LoaderAndChecker

/-!
The program around the solver: it loads the file that the command line names, solves it and
prints the answer. A signal prints what is known so far. The build is the one without
assertions.
-/
namespace EvalMaxSat
open Literals InputStreams InputStream MaxSatSolver EvalMaxSAT StepProgram

variable {K : Type}

namespace EvalMaxSAT

/-- The values of the input variables, behind the unused value at index 0. -/
def getSolution (s : EvalMaxSAT K) : List Bool :=
  if s.nInputVars + 1 ≤ s.solution.length then s.solution.take (s.nInputVars + 1)
  else s.solution ++ List.replicate (s.nInputVars + 1 - s.solution.length) false

end EvalMaxSAT

section Checking
variable {B : Type} [InputStream B]

/-- The loop of `calculateCost` with the vector, which the caller gets back longer where the
file has variables that it had no place for. -/
def checkLines (weightForHardClause cost : Nat) (result : List Bool) (b : B) :
    FileEnd (Nat × List Bool) :=
  match _line : readLine parseWeight b with
  | .stop .endOfFile => .done (cost, result)
  | .stop (.exits e) => .exits e
  | .stop (.refused e) => .refused (some e) (0, result)
  | .comment b => checkLines weightForHardClause cost result b
  | .header top b => checkLines top cost result b
  | .weighted weight b =>
    match _clause : readClause b with
    | .error e => .exits e
    | .ok (lits, b) =>
      let (sat, result) := satisfied result lits
      if weightForHardClause ≤ weight then
        if sat then checkLines weightForHardClause cost result b else .done (maxWeight, result)
      else checkLines weightForHardClause (if sat then cost else u64 (cost + weight)) result b
termination_by left b
decreasing_by
  · exact readLine_left (fun _ _ _ => parseWeight_left) (by rw [_line]; rfl)
  · exact readLine_left (fun _ _ _ => parseWeight_left) (by rw [_line]; rfl)
  · exact Nat.lt_of_le_of_lt (readClause_left _clause)
      (readLine_left (fun _ _ _ => parseWeight_left) (by rw [_line]; rfl))
  · exact Nat.lt_of_le_of_lt (readClause_left _clause)
      (readLine_left (fun _ _ _ => parseWeight_left) (by rw [_line]; rfl))

def checkFile (result : List Bool) (b : B) : FileEnd (Nat × List Bool) :=
  checkLines maxWeight 0 result b

end Checking

section Printing

/-- How the process ends: with a code, or in a function that complains and exits. -/
inductive Ended where
  | code (n : Nat)
  | complains (complaint : Complaint)
  deriving DecidableEq, Repr

/-- The bytes of the standard output, the complaints, and how it ends. -/
structure Process where
  output : List Nat
  errors : List Complaint
  ended : Ended
  deriving DecidableEq, Repr

def Process.printed (text : List Nat) (p : Process) : Process :=
  { p with output := text ++ p.output }

def Process.warned (complaints : List Complaint) (p : Process) : Process :=
  { p with errors := complaints ++ p.errors }

def newline : List Nat := ['\n'.toNat]

def decimalText (n : Nat) : List Nat := (Nat.toDigits 10 n).map Char.toNat

def literalText (solution : List Bool) (i : Nat) : List Nat :=
  if solution.getD i false then bytes " " ++ decimalText i else bytes " -" ++ decimalText i

/-- The values in the old output format: the literals that are true. -/
def oldValues (solution : List Bool) : List Nat :=
  bytes "v" ++ (List.range' 1 (solution.length - 1)).flatMap (literalText solution)

/-- The values in the new output format: a character for each variable. -/
def newValues (solution : List Bool) : List Nat :=
  bytes "v " ++ (solution.drop 1).map fun value => if value then '1'.toNat else '0'.toNat

def valuesText (old : Bool) (solution : List Bool) : List Nat :=
  if old then oldValues solution else newValues solution

/-- The answer after its first two characters. -/
def answerText (old : Bool) (status : String) (cost : Nat) (solution : List Bool) : List Nat :=
  decimalText cost ++ newline ++ bytes status ++ newline ++ valuesText old solution ++ newline

/-- The running time as the process prints it: in the line of the bench mode, and when the clock is
destroyed. -/
structure Times where
  bench : List Nat
  total : List Nat
  deriving DecidableEq, Repr

/-- The destructor of `TotalChrono` writes the last line. An `abort` runs no destructor. -/
def Process.finished (times : Times) (p : Process) : Process :=
  if p.ended = .complains invalidLiteral then p
  else { p with output := p.output ++ (bytes "c Total time : " ++ times.total ++ newline) }

/-- The costs that a solve reports, in their order. -/
def reportsOf (tr : List (Event StepKind (EvalMaxSAT K))) : List Nat :=
  tr.filterMap fun e => match e.label with
    | .report cost => some cost
    | _ => none

def reportLines (costs : List Nat) : List Nat :=
  costs.flatMap fun cost => bytes "o " ++ decimalText cost ++ newline

/-- Call `calculateCost` on the file and go on with its value and the vector. -/
def afterCheck (file : List (List Nat)) (solution : List Bool) (next : Nat → List Bool → Process) :
    Process :=
  match checkFile solution (StreamBuffer.start file) with
  | .exits complaint => ⟨[], [], .complains complaint⟩
  | .refused complaint r => (next r.1 r.2).warned complaint.toList
  | .done r => next r.1 r.2

end Printing

section CommandLine

/-- The options that the result depends on. -/
structure Arguments where
  file : String
  old : Bool
  bench : Nat
  noDS : Bool
  noMS : Bool
  noUBS : Bool
  deriving DecidableEq, Repr

/-- The settings that `main` makes before it loads the file. -/
def configure (args : Arguments) (s : EvalMaxSAT K) : EvalMaxSAT K :=
  let s := if args.noDS then s.unactivateDelayStrategy else s
  let s := if args.noMS then s.unactivateMultiSolveStrategy else s
  if args.noUBS then s.unactivateUBStrategy else s

def benchLine (args : Arguments) (times : Times) (file : List (List Nat))
    (solution : List Bool) : Process :=
  Process.printed (bytes args.file ++ bytes "\t") (afterCheck file solution fun cost _ =>
    ⟨decimalText cost ++ bytes "\t" ++ times.bench ++ newline, [], .code 0⟩)

/-- What `main` does with the result of `solveFile`. -/
def conclude (args : Arguments) (times : Times) (file : List (List Nat)) (sat : Bool)
    (solution : List Bool) : Process :=
  if args.bench ≠ 0 then benchLine args times file solution
  else if sat then
    Process.printed (bytes "o ") (afterCheck file solution fun cost solution =>
      ⟨answerText args.old "s OPTIMUM FOUND" cost solution, [], .code 30⟩)
  else ⟨bytes "s UNSATISFIABLE" ++ newline, [], .code 20⟩

/-- Before the solve, the last lines of `solveFile` that set something. -/
def beforeSolve (s : EvalMaxSAT K) : EvalMaxSAT K :=
  if s.isWeighted = false then s.disableOptimize else s

/-- From the end of the solve on. -/
def afterSolve (args : Arguments) (times : Times) (reads : Nat → List (List Nat)) :
    Outcome Bool → EvalMaxSAT K → Option Process
  | .fuel, _ => none
  | .exit, _ => some ⟨[], [], .complains softTooLate⟩
  | .done false, _ => some (conclude args times (reads 1) false [])
  | .done true, s => some (Process.printed
      (bytes "c nombre de var = " ++ decimalText s.getSolution.length ++ newline)
      (afterCheck (reads 1) s.getSolution fun _ _ =>
        conclude args times (reads 2) true s.getSolution))

/-- From the end of the loading on. -/
def afterParse (env : Env K) (args : Arguments) (times : Times)
    (reads : Nat → List (List Nat)) (fuel : Nat) : FileEnd (EvalMaxSAT K) → Option Process
  | .exits complaint => some ⟨[], [], .complains complaint⟩
  | .refused complaint _ => some (Process.warned
      (complaint.toList ++ [⟨"Unable to read the file " ++ args.file, none⟩])
      (conclude args times (reads 1) false []))
  | .done s =>
    let run := (solve env).run fuel (beforeSolve s)
    (afterSolve args times reads run.2.1 run.2.2).map
      (Process.printed (reportLines (reportsOf run.1)))

/-- `main`, where the `i`-th opening of the file delivers `reads i`; `none` when the fuel is
too little for the solve. -/
def main (env : Env K) (args : Arguments) (times : Times) (reads : Nat → List (List Nat))
    (core : K) (fuel : Nat) : Option Process :=
  (afterParse env args times reads fuel
    (parse (configure args (fresh core)) (StreamBuffer.start (reads 0)))).map
      (Process.finished times)

/-- What a signal does with the solver, once there is one. -/
def interrupted (args : Arguments) (times : Times) (reads : Nat → List (List Nat))
    (s : EvalMaxSAT K) : Process :=
  if args.bench ≠ 0 then benchLine args times (reads 0) s.getSolution
  else afterCheck (reads 0) s.getSolution fun cost solution =>
    if cost ≠ maxWeight then
      Process.printed (bytes "o ") (afterCheck (reads 1) solution fun cost solution =>
        ⟨answerText args.old "s SATISFIABLE" cost solution, [], .code 10⟩)
    else ⟨bytes "s UNKNOWN" ++ newline, [], .code 0⟩

/-- The output here is what the handler adds to what the process had written before. -/
def signalHandler (args : Arguments) (times : Times) (reads : Nat → List (List Nat))
    (signum : Nat) (monMaxSat : Option (EvalMaxSAT K)) : Process :=
  Process.finished times (Process.printed
    (bytes "c Interrupt signal (" ++ decimalText signum ++ bytes ") received." ++ newline)
    (monMaxSat.elim ⟨[], [], .code 0⟩ (interrupted args times reads)))

end CommandLine
end EvalMaxSat
