import EvalMaxSat.MainProgram
import EvalMaxSat.Steps

/-!
The checker with the vector that it makes longer: whatever solution it is given, its value is
the cost of the solution with the values that are missing taken as false. A signal handler that
trusts nothing else is right in every state.
-/
namespace EvalMaxSat
open Literals InputStreams InputStream EvalMaxSAT

variable {K : Type} {result : List Bool} {lits : Clause} {formula : Formula} {cost : Nat}

section Lengthening

/-- The vector as it was, or with values behind it that are all false; and as it was where it
has a place for each of the literals. -/
def Lengthened (lits : List Int) (result longer : List Bool) : Prop :=
  ∃ k, longer = result ++ List.replicate k false ∧
    ((∀ l ∈ lits, l.natAbs < result.length) → k = 0)

theorem lengthened_same (lits : List Int) (result : List Bool) : Lengthened lits result result :=
  ⟨0, by simp, fun _ => rfl⟩

theorem lengthened_assignment {longer : List Bool} (longer_of : Lengthened lits result longer) :
    assignment longer = assignment result := by
  obtain ⟨k, same, _⟩ := longer_of
  rw [same, assignment_pad]

theorem lengthened_covered {longer : List Bool} (longer_of : Lengthened lits result longer)
    (covered : ∀ l ∈ lits, l.natAbs < result.length) : longer = result := by
  obtain ⟨k, same, none⟩ := longer_of
  rw [same, none covered, List.replicate_zero, List.append_nil]

theorem lengthened_trans {more : List Int} {longer longest : List Bool}
    (first : Lengthened lits result longer) (second : Lengthened more longer longest) :
    Lengthened (lits ++ more) result longest := by
  obtain ⟨k, same, none⟩ := first
  obtain ⟨j, same', none'⟩ := second
  refine ⟨k + j, ?_, ?_⟩
  · rw [same', same, List.append_assoc, List.replicate_append_replicate]
  · intro covered
    have here := none fun l mem => covered l (List.mem_append_left more mem)
    have later := none' fun l mem => by
      rw [same, here, List.replicate_zero, List.append_nil]
      exact covered l (List.mem_append_right lits mem)
    omega

theorem lengthened_twice {longer longest : List Bool} (first : Lengthened lits result longer)
    (second : Lengthened lits longer longest) : Lengthened lits result longest := by
  obtain ⟨k, same, none⟩ := lengthened_trans first second
  refine ⟨k, same, fun covered => none ?_⟩
  intro l mem
  rcases List.mem_append.mp mem with mem | mem
  · exact covered l mem
  · exact covered l mem

theorem satisfied_lengthened (result : List Bool) (lits : Clause) :
    (satisfied result lits).1 = decide (Holds (assignment result) lits) ∧
      Lengthened lits result (satisfied result lits).2 := by
  induction lits generalizing result with
  | nil => exact ⟨by simp [satisfied, Holds], lengthened_same [] result⟩
  | cons l lits ih =>
    have place : Lengthened [l] result
        (result ++ List.replicate (l.natAbs + 1 - result.length) false) := by
      refine ⟨_, rfl, ?_⟩
      intro covered
      have := covered l List.mem_cons_self
      omega
    have agrees := lengthened_assignment place
    have sign : decide (0 < l) =
        (result ++ List.replicate (l.natAbs + 1 - result.length) false).getD l.natAbs false ↔
          litTrue (assignment result) l = true := by
      rw [← agrees]
      unfold litTrue assignment
      generalize (result ++ _).getD l.natAbs false = value
      cases value <;> simp
    rw [satisfied]
    by_cases here : litTrue (assignment result) l = true
    · rw [if_pos (sign.mpr here)]
      have holds : Holds (assignment result) (l :: lits) := ⟨l, by simp, here⟩
      refine ⟨(decide_eq_true holds).symm, ?_⟩
      obtain ⟨k, same, none⟩ := place
      exact ⟨k, same, fun covered => none fun j mem => by
        rw [List.mem_singleton.mp mem]
        exact covered l List.mem_cons_self⟩
    · rw [if_neg fun eq => here (sign.mp eq)]
      obtain ⟨truth, rest⟩ := ih (result ++ List.replicate (l.natAbs + 1 - result.length) false)
      rw [agrees] at truth
      have tail : Holds (assignment result) (l :: lits) ↔ Holds (assignment result) lits := by
        simp [Holds, here]
      refine ⟨?_, lengthened_trans place rest⟩
      rw [truth]
      simp only [tail]

end Lengthening

section Settling
variable {B : Type} [InputStream B]

/-- What the checker makes of the clauses, with the vector. -/
def settle (cost : Nat) (result : List Bool) : Formula → Ending → FileEnd (Nat × List Bool)
  | [], .endOfFile => .done (cost, result)
  | [], .exits e => .exits e
  | [], .refused e => .refused (some e) (0, result)
  | (lits, none) :: formula, e =>
    if (satisfied result lits).1 then settle cost (satisfied result lits).2 formula e
    else .done (maxWeight, (satisfied result lits).2)
  | (lits, some w) :: formula, e =>
    settle (if (satisfied result lits).1 then cost else u64 (cost + w))
      (satisfied result lits).2 formula e

/-- The rest of the loop after the start of a line. -/
def checkLine (weightForHardClause cost : Nat) (result : List Bool) :
    Line Nat B → FileEnd (Nat × List Bool)
  | .stop .endOfFile => .done (cost, result)
  | .stop (.exits e) => .exits e
  | .stop (.refused e) => .refused (some e) (0, result)
  | .comment b => checkLines weightForHardClause cost result b
  | .header top b => checkLines top cost result b
  | .weighted weight b =>
    match readClause b with
    | .error e => .exits e
    | .ok (lits, b) =>
      let (sat, result) := satisfied result lits
      if weightForHardClause ≤ weight then
        if sat then checkLines weightForHardClause cost result b else .done (maxWeight, result)
      else checkLines weightForHardClause (if sat then cost else u64 (cost + weight)) result b

theorem checkLines_eq (h cost : Nat) (result : List Bool) (b : B) :
    checkLines h cost result b = checkLine h cost result (readLine parseWeight b) := by
  rw [checkLines]
  split <;> rename_i line <;> rw [line, checkLine]
  split <;> rename_i clause <;> rw [clause]

theorem checkLines_document (top cost : Nat) (result : List Bool) (b : B)
    (range : (document b).All fun l => i32 l = l) : checkLines top cost result b =
      settle cost result (readClauses top (document b).entries) (document b).ending := by
  induction h : left b using Nat.strongRecOn generalizing top cost result b with
  | ind n ih =>
    have less : ∀ c, (readLine writtenWeight b).rest = some c → left c < left b :=
      fun c rest => readLine_left (fun _ _ _ => writtenWeight_left) rest
    rw [document_eq] at range
    rw [checkLines_eq, document_eq, readLine_map weightRead parseWeight_written b]
    generalize readLine writtenWeight b = line at less range
    cases line with
    | stop e => cases e <;> rfl
    | comment c =>
      have smaller := less c rfl
      exact ih (left c) (by omega) top cost result c range rfl
    | header mark c =>
      have smaller := less c rfl
      exact ih (left c) (by omega) (weightRead mark) cost result c (all_of_push range) rfl
    | weighted mark c =>
      have smaller := less c rfl
      rw [Line.mapWeight, checkLine, documentLine]
      rw [documentLine] at range
      cases clause : (writtenClause c).2 with
      | error e =>
        rw [clause] at range
        rw [readClause_written c range.unfinished, clause]
        rfl
      | ok d =>
        have smaller' := writtenClause_left clause
        rw [clause] at range
        rw [readClause_written c (range.clauses mark _ (by simp [Document.push])), clause]
        have rest := all_of_push range
        simp only [Except.map, Document.push, readClauses]
        split
        · rw [settle]
          split
          · exact ih (left d) (by omega) top cost _ d rest rfl
          · rfl
        · rw [settle]
          exact ih (left d) (by omega) top _ _ d rest rfl

variable {C : Type} [InputStream C] {R : B → C → Prop} {b : B} {c : C}

theorem checkLines_simulates (sim : Simulates R) (h cost : Nat) (result : List Bool)
    (related : R b c) : checkLines h cost result b = checkLines h cost result c := by
  induction size : left b using Nat.strongRecOn generalizing b c h cost result with
  | ind n ih =>
    have line := readLine_simulates sim (parseWeight_simulates sim) related
    have less : ∀ b', (readLine parseWeight b).rest = some b' → left b' < left b :=
      fun b' rest => readLine_left (fun _ _ _ => parseWeight_left) rest
    rw [checkLines_eq, checkLines_eq]
    generalize readLine parseWeight b = x at line less
    generalize readLine parseWeight c = y at line
    cases line with
    | stop e => cases e <;> rfl
    | @comment b' c' behind =>
      have smaller := less b' rfl
      exact ih (left b') (by omega) h cost result behind rfl
    | @header b' c' top behind =>
      have smaller := less b' rfl
      exact ih (left b') (by omega) top cost result behind rfl
    | @weighted b' c' w behind =>
      have smaller := less b' rfl
      rw [checkLine, checkLine]
      rcases agree_cases (readClause_simulates sim behind) with
        ⟨e, readB, readC⟩ | ⟨lits, d, d', readB, readC, behind⟩
      · rw [readB, readC]
      · have further := readClause_left readB
        rw [readB, readC]
        simp only
        split
        · split
          · exact ih (left d) (by omega) h cost _ behind rfl
          · rfl
        · exact ih (left d) (by omega) h _ _ behind rfl

/-- On a file that is read to its end the checker charges the soft clauses that the solution
falsifies, or finds a hard one. -/
theorem settle_done (small : cost + softWeights formula < 2 ^ 63) (result : List Bool) :
    ∃ longer, settle cost result formula .endOfFile = .done (if Models (assignment result)
        (hardOf (callsOf formula)) then cost + softLoss (softOf (callsOf formula))
          (assignment result) else maxWeight, longer) ∧
      Lengthened (formula.flatMap Prod.fst) result longer := by
  induction formula generalizing cost result with
  | nil =>
    refine ⟨result, ?_, lengthened_same _ result⟩
    simp [settle, callsOf, hardOf, softOf, softLoss, Models]
  | cons c formula ih =>
    obtain ⟨lits, weight⟩ := c
    obtain ⟨truth, place⟩ := satisfied_lengthened result lits
    have agrees := lengthened_assignment place
    rw [List.flatMap_cons]
    cases weight with
    | none =>
      obtain ⟨longer, rest, more⟩ := ih small (satisfied result lits).2
      have hard : Models (assignment result) (hardOf (callsOf ((lits, none) :: formula))) ↔
          Holds (assignment result) lits ∧ Models (assignment result) (hardOf (callsOf formula)) :=
        List.forall_mem_cons
      rw [settle, truth]
      by_cases holds : Holds (assignment result) lits
      · refine ⟨longer, ?_, lengthened_trans place more⟩
        rw [agrees] at rest
        simp only [holds, hard, decide_true, if_true, true_and]
        exact rest
      · refine ⟨(satisfied result lits).2, ?_, ?_⟩
        · simp only [holds, hard, decide_false, Bool.false_eq_true, if_false, false_and]
        · exact lengthened_trans place (lengthened_same _ _)
    | some w =>
      rw [softWeights_cons] at small
      have loss : softLoss (softOf (callsOf ((lits, some w) :: formula))) (assignment result) =
          penalty lits w (assignment result) +
            softLoss (softOf (callsOf formula)) (assignment result) := rfl
      have hard : hardOf (callsOf ((lits, some w) :: formula)) = hardOf (callsOf formula) := rfl
      have added : (if (decide (Holds (assignment result) lits)) = true then cost
          else u64 ((cost + w : Nat) : Int)) = cost + penalty lits w (assignment result) := by
        unfold penalty
        by_cases holds : Holds (assignment result) lits
        · simp [holds]
        · simp only [holds, decide_false, Bool.false_eq_true, if_false]
          exact u64_of_nat (by omega)
      have charged : penalty lits w (assignment result) ≤ w := by
        unfold penalty
        split <;> omega
      obtain ⟨longer, rest, more⟩ :=
        @ih (cost + penalty lits w (assignment result)) (by omega) (satisfied result lits).2
      refine ⟨longer, ?_, lengthened_trans place more⟩
      rw [agrees] at rest
      rw [settle, truth, hard, loss, ← Nat.add_assoc, ← rest, ← added]
      rfl

end Settling

section Files

/-- The clauses of a file, hard where they have no weight. -/
def fileFormula (text : List Nat) : Formula := readClauses maxWeight (document text).entries

def hardClauses (text : List Nat) : Cnf := hardOf (callsOf (fileFormula text))

def fileLoss (text : List Nat) (a : Assignment) : Nat :=
  softLoss (softOf (callsOf (fileFormula text))) a

def fileVars (text : List Nat) : Nat := variablesOf 0 (callsOf (fileFormula text))

/-- The numbers of the file have the sizes that the program has types for. -/
structure Fitting (text : List Nat) : Prop where
  range : (document text).InRange
  small : softWeights (fileFormula text) < 2 ^ 63
  room : fileVars text + longSofts (softOf (callsOf (fileFormula text))) < 2 ^ 31

variable {text : List Nat} {reads : Nat → List (List Nat)}

theorem fileVars_mem {l : Int} (mem : l ∈ (fileFormula text).flatMap Prod.fst) :
    l.natAbs ≤ fileVars text := by
  obtain ⟨c, inFormula, lit⟩ := List.mem_flatMap.mp mem
  exact variablesOf_mem (List.mem_map.mpr ⟨c, inFormula, rfl⟩) lit

theorem fileLoss_le (fitting : Fitting text) (a : Assignment) : fileLoss text a < 2 ^ 63 := by
  have least := softLoss_le (softOf (callsOf (fileFormula text))) a
  have sum := (softOf_callsOf (fileFormula text)).1
  have small := fitting.small
  unfold fileLoss
  omega

/-- However its bytes come, the checker settles the clauses of a file. -/
theorem checkFile_text (range : (document text).InRange) {file : List (List Nat)}
    (pieces : ∀ r ∈ file, r ≠ []) (same : file.flatten = text) (result : List Bool) :
    checkFile result (StreamBuffer.start file) =
      settle 0 result (fileFormula text) (document text).ending := by
  subst same
  unfold checkFile
  rw [checkLines_simulates StreamBuffer.shows_simulates maxWeight 0 result
    (StreamBuffer.shows_start pieces), checkLines_document maxWeight 0 result _ range.word]
  rfl

theorem afterCheck_file (fitting : Fitting text) (ends : (document text).ending = .endOfFile)
    {file : List (List Nat)} (pieces : ∀ r ∈ file, r ≠ []) (same : file.flatten = text)
    (solution : List Bool) (next : Nat → List Bool → Process) :
    ∃ longer, afterCheck file solution next = next (if Models (assignment solution)
        (hardClauses text) then fileLoss text (assignment solution) else maxWeight) longer ∧
      Lengthened ((fileFormula text).flatMap Prod.fst) solution longer := by
  have small : 0 + softWeights (fileFormula text) < 2 ^ 63 := by
    rw [Nat.zero_add]
    exact fitting.small
  obtain ⟨longer, done, place⟩ := settle_done small solution
  refine ⟨longer, ?_, place⟩
  unfold afterCheck
  rw [checkFile_text fitting.range pieces same, ends, done, Nat.zero_add]
  rfl

theorem interrupted_file (args : Arguments) (normal : args.bench = 0) (times : Times)
    (pieces : ∀ i, ∀ r ∈ reads i, r ≠ []) (same : ∀ i, (reads i).flatten = text)
    (fitting : Fitting text) (ends : (document text).ending = .endOfFile) (s : EvalMaxSAT K) :
    ∃ shown, Lengthened ((fileFormula text).flatMap Prod.fst) s.getSolution shown ∧
      interrupted args times reads s =
        if Models (assignment shown) (hardClauses text) then
          ⟨bytes "o " ++ answerText args.old "s SATISFIABLE"
            (fileLoss text (assignment shown)) shown, [], .code 10⟩
        else ⟨bytes "s UNKNOWN" ++ newline, [], .code 0⟩ := by
  unfold interrupted
  rw [if_neg (by simp [normal])]
  obtain ⟨longer, first, place⟩ := afterCheck_file fitting ends (pieces 0) (same 0) s.getSolution
    fun cost solution => if cost ≠ maxWeight then
      Process.printed (bytes "o ") (afterCheck (reads 1) solution fun cost solution =>
        ⟨answerText args.old "s SATISFIABLE" cost solution, [], .code 10⟩)
    else ⟨bytes "s UNKNOWN" ++ newline, [], .code 0⟩
  obtain ⟨longest, second, further⟩ := afterCheck_file fitting ends (pieces 1) (same 1) longer
    fun cost solution => ⟨answerText args.old "s SATISFIABLE" cost solution, [], .code 10⟩
  have agrees := lengthened_assignment place
  have shown := lengthened_assignment further
  refine ⟨longest, lengthened_twice place further, ?_⟩
  rw [first, second, shown, agrees]
  by_cases models : Models (assignment s.getSolution) (hardClauses text)
  · have loss := fileLoss_le fitting (assignment s.getSolution)
    have word : maxWeight = 2 ^ 64 - 1 := rfl
    rw [if_pos models, if_pos models, if_pos (by omega)]
    rfl
  · rw [if_neg models, if_neg models, if_neg (by simp)]

/-- What the handler writes: an answer with the values and their cost, or that nothing is known. -/
def answeredSignal (args : Arguments) (times : Times) (signum cost : Nat) (solution : List Bool) :
    Process :=
  Process.finished times (Process.printed
    (bytes "c Interrupt signal (" ++ decimalText signum ++ bytes ") received." ++ newline)
    ⟨bytes "o " ++ answerText args.old "s SATISFIABLE" cost solution, [], .code 10⟩)

/-- A hard clause and two soft ones that cannot all be satisfied, in two pieces. -/
def sampleFile : List (List Nat) := [bytes "h 1 2 0\n3 -1", bytes " 0\n4 -2 0\n"]

def sampleOptions : Arguments := ⟨"sample.wcnf", true, 0, false, false, false⟩

theorem sampleFile_document : document sampleFile.flatten =
    ⟨[.clause none [1, 2], .clause (some 3) [-1], .clause (some 4) [-2]], [], .endOfFile⟩ := by
  decide +kernel

theorem sampleFile_fitting : Fitting sampleFile.flatten where
  range := by
    rw [sampleFile_document]
    decide
  small := by
    unfold fileFormula
    rw [sampleFile_document]
    decide
  room := by
    unfold fileVars fileFormula
    rw [sampleFile_document]
    decide

theorem sampleFile_ends : (document sampleFile.flatten).ending = .endOfFile := by
  rw [sampleFile_document]

theorem sampleFile_hard : hardClauses sampleFile.flatten = [[1, 2]] := by
  unfold hardClauses fileFormula
  rw [sampleFile_document]
  decide

theorem sampleFile_pieces : ∀ r ∈ sampleFile, r ≠ [] := by
  simp [sampleFile, bytes]

end Files
end EvalMaxSat
