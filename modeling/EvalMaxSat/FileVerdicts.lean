import EvalMaxSat.SolvedFiles
import EvalMaxSat.CliqueAgreement
import EvalMaxSat.CadicalReadings

/-!
What the verdict on a file depends on. The output of the program is a function of the formula
that the file denotes; the verdict and the cost depend neither on the order of its clauses nor on
the options, the searches or the clocks; and with the wrapper of the library and the clique search
of the repository in their places, only single searches are left to be trusted.
-/
namespace EvalMaxSat
open Literals InputStreams InputStream MaxSatSolver EvalMaxSAT StepProgram

variable {K : Type} {text text' : List Nat} {reads reads' : Nat → List (List Nat)}

section Contents

/-- Two files with the same clauses in the same order, and with the same end. -/
structure SameContents (text text' : List Nat) : Prop where
  formula : fileFormula text = fileFormula text'
  ending : (document text).ending = (document text').ending
  empty : text = [] ↔ text' = []

/-- The openings of a file deliver its bytes, in whatever pieces. -/
structure Delivers (reads : Nat → List (List Nat)) (text : List Nat) : Prop where
  pieces : ∀ i, ∀ r ∈ reads i, r ≠ []
  same : ∀ i, (reads i).flatten = text

theorem checkFile_same (contents : SameContents text text') (range : (document text).InRange)
    (range' : (document text').InRange) (delivers : Delivers reads text)
    (delivers' : Delivers reads' text') (i j : Nat) (result : List Bool) :
    checkFile result (StreamBuffer.start (reads i)) =
      checkFile result (StreamBuffer.start (reads' j)) := by
  rw [checkFile_text range (delivers.pieces i) (delivers.same i),
    checkFile_text range' (delivers'.pieces j) (delivers'.same j), contents.formula,
    contents.ending]

theorem parse_same (contents : SameContents text text') (fitting : Fitting text)
    (fitting' : Fitting text') (delivers : Delivers reads text)
    (delivers' : Delivers reads' text') (core : K) (args : Arguments) :
    parse (configure args (fresh core)) (StreamBuffer.start (reads 0)) =
      parse (configure args (fresh core)) (StreamBuffer.start (reads' 0)) := by
  by_cases empty : text = []
  · rw [parse_refills (delivers.pieces 0), parse_refills (delivers'.pieces 0), delivers.same 0,
      delivers'.same 0, empty, contents.empty.mp empty]
  · have nonempty : text' ≠ [] := fun none => empty (contents.empty.mpr none)
    rw [parse_text core args fitting empty (delivers.pieces 0) (delivers.same 0),
      parse_text core args fitting' nonempty (delivers'.pieces 0) (delivers'.same 0)]
    unfold fileVars hardClauses
    rw [contents.formula, contents.ending]

variable {args : Arguments} {times : Times}

theorem afterCheck_same {file file' : List (List Nat)}
    (check : ∀ result, checkFile result (StreamBuffer.start file) =
      checkFile result (StreamBuffer.start file'))
    (solution : List Bool) (next : Nat → List Bool → Process) :
    afterCheck file solution next = afterCheck file' solution next := by
  unfold afterCheck
  rw [check]

theorem conclude_same {file file' : List (List Nat)}
    (check : ∀ result, checkFile result (StreamBuffer.start file) =
      checkFile result (StreamBuffer.start file')) (sat : Bool) (solution : List Bool) :
    conclude args times file sat solution = conclude args times file' sat solution := by
  unfold conclude benchLine
  simp only [afterCheck_same check]

theorem afterSolve_same (check : ∀ i result, checkFile result (StreamBuffer.start (reads i)) =
      checkFile result (StreamBuffer.start (reads' i))) (o : Outcome Bool) (s : EvalMaxSAT K) :
    afterSolve args times reads o s = afterSolve args times reads' o s := by
  cases o with
  | fuel => rfl
  | exit => rfl
  | done b =>
    cases b with
    | false =>
      unfold afterSolve
      rw [conclude_same (check 1)]
    | true =>
      unfold afterSolve
      simp only [afterCheck_same (check 1), conclude_same (check 2)]

theorem outputs_same (env : Env K) (core : K)
    (loaded : parse (configure args (fresh core)) (StreamBuffer.start (reads 0)) =
      parse (configure args (fresh core)) (StreamBuffer.start (reads' 0)))
    (check : ∀ i result, checkFile result (StreamBuffer.start (reads i)) =
      checkFile result (StreamBuffer.start (reads' i))) :
    (∀ fuel, main env args times reads core fuel = main env args times reads' core fuel) ∧
      ∀ signum (monMaxSat : Option (EvalMaxSAT K)),
        signalHandler args times reads signum monMaxSat =
          signalHandler args times reads' signum monMaxSat := by
  constructor
  · intro fuel
    unfold main
    rw [loaded]
    congr 1
    generalize parse (configure args (fresh core)) (StreamBuffer.start (reads' 0)) = ended
    cases ended with
    | exits complaint => rfl
    | refused complaint s =>
      unfold afterParse
      rw [conclude_same (check 1)]
    | done s =>
      unfold afterParse
      simp only [afterSolve_same check]
  · intro signum monMaxSat
    unfold signalHandler
    cases monMaxSat with
    | none => rfl
    | some s =>
      simp only [Option.elim_some, interrupted, benchLine, afterCheck_same (check 0),
        afterCheck_same (check 1)]

/-- The process is the same to the last byte if the two files have the same contents: the blanks,
the comments, the headers and the pieces in which the bytes come do not matter, in a run to its end
or in one that a signal ends. -/
theorem same_formula_same_output (env : Env K) (core : K) (args : Arguments) (times : Times)
    (contents : SameContents text text') (fitting : Fitting text) (fitting' : Fitting text')
    (delivers : Delivers reads text) (delivers' : Delivers reads' text') :
    (∀ fuel, main env args times reads core fuel = main env args times reads' core fuel) ∧
      ∀ signum (monMaxSat : Option (EvalMaxSAT K)),
        signalHandler args times reads signum monMaxSat =
          signalHandler args times reads' signum monMaxSat :=
  outputs_same env core (parse_same contents fitting fitting' delivers delivers' core args)
    fun i => checkFile_same contents fitting.range fitting'.range delivers delivers' i i

def sampleOld : List (List Nat) :=
  [bytes "c the same\np wcnf 2 3", bytes " 9\n9 1 2 0 3 -1", bytes " 0\n4\t-2 0"]

theorem sampleOld_document : document sampleOld.flatten =
    ⟨[.top (some 9), .clause (some 9) [1, 2], .clause (some 3) [-1], .clause (some 4) [-2]], [],
      .endOfFile⟩ := by
  decide +kernel

theorem sampleOld_fitting : Fitting sampleOld.flatten where
  range := by
    rw [sampleOld_document]
    decide
  small := by
    unfold fileFormula
    rw [sampleOld_document]
    decide
  room := by
    unfold fileVars fileFormula
    rw [sampleOld_document]
    decide

theorem sampleOld_contents : SameContents sampleFile.flatten sampleOld.flatten where
  formula := by
    unfold fileFormula
    rw [sampleFile_document, sampleOld_document]
    decide
  ending := by rw [sampleFile_document, sampleOld_document]
  empty := by simp [sampleFile, sampleOld, bytes]

theorem sampleFile_delivered : Delivers (fun _ => sampleFile) sampleFile.flatten :=
  ⟨fun _ => sampleFile_pieces, fun _ => rfl⟩

theorem sampleOld_delivered : Delivers (fun _ => sampleOld) sampleOld.flatten :=
  ⟨fun _ => by simp [sampleOld, bytes], fun _ => rfl⟩

theorem same_formula_same_output_small :
    main referenceBackEnd sampleOptions ⟨[], []⟩ (fun _ => sampleFile) () 1000 =
      main referenceBackEnd sampleOptions ⟨[], []⟩ (fun _ => sampleOld) () 1000 :=
  (same_formula_same_output referenceBackEnd () sampleOptions ⟨[], []⟩ sampleOld_contents
    sampleFile_fitting sampleOld_fitting sampleFile_delivered sampleOld_delivered).1 1000

end Contents

section Formats
variable {formula : Formula} {format format' : Format}

theorem readClauses_marked {top : Nat} (mark : Option Nat → Option Nat)
    (hard : top ≤ weightRead (mark none)) (soft : ∀ c ∈ formula, ∀ w, c.2 = some w →
      weightRead (mark (some w)) = w ∧ w < top) :
    readClauses top (formula.map fun c => .clause (mark c.2) c.1) = formula := by
  induction formula with
  | nil => rfl
  | cons c formula ih =>
    obtain ⟨lits, weight⟩ := c
    rw [List.map_cons, readClauses, ih fun d mem => soft d (List.mem_cons_of_mem _ mem)]
    cases weight with
    | none => rw [if_pos hard]
    | some w =>
      obtain ⟨read, below⟩ := soft (lits, some w) List.mem_cons_self w rfl
      dsimp only
      rw [read, if_neg (by omega)]

theorem readClauses_format (expressible : Expressible formula) (fits : format.Fits formula) :
    readClauses maxWeight (format.entries formula) = formula := by
  have word : maxWeight = 2 ^ 64 - 1 := rfl
  cases format with
  | new =>
    apply readClauses_marked id
    · exact Nat.le_refl _
    · intro c mem w weight
      obtain ⟨_, small⟩ := expressible.weights c mem w weight
      exact ⟨weightRead_some (by omega), by omega⟩
  | old top =>
    obtain ⟨top_small, above⟩ := fits
    rw [Format.entries, readClauses, weightRead_some top_small]
    apply readClauses_marked fun w => some (w.getD top)
    · exact Nat.le_of_eq (weightRead_some top_small).symm
    · intro c mem w weight
      obtain ⟨_, small⟩ := expressible.weights c mem w weight
      exact ⟨weightRead_some (show w < 2 ^ 64 by omega), above c mem w weight⟩

theorem fileFormula_written (expressible : Expressible formula) (fits : format.Fits formula)
    (written : FileText (format.entries formula) text) : fileFormula text = formula := by
  unfold fileFormula
  rw [document_written written]
  exact readClauses_format expressible fits

theorem fitting_written (expressible : Expressible formula) (fits : format.Fits formula)
    (small : softWeights formula < 2 ^ 63) (written : FileText (format.entries formula) text) :
    Fitting text where
  range := by
    rw [document_written written]
    refine ⟨fun mark lits mem l lit => ?_, fun l lit => absurd lit List.not_mem_nil⟩
    obtain ⟨c, inFormula, same⟩ := entries_lits mem
    rw [← same] at lit
    exact (expressible.literals c inFormula l lit).2
  small := by
    rw [fileFormula_written expressible fits written]
    exact small
  room := by
    unfold fileVars
    rw [fileFormula_written expressible fits written]
    exact expressible.room

/-- A formula in either of the two formats, with any blanks and comments and in any pieces, gives
the same output to the last byte. -/
theorem formats_same_output (env : Env K) (core : K) (args : Arguments) (times : Times)
    (expressible : Expressible formula) (small : softWeights formula < 2 ^ 63)
    (fits : format.Fits formula) (fits' : format'.Fits formula)
    (written : FileText (format.entries formula) text)
    (written' : FileText (format'.entries formula) text')
    (empty : text = [] ↔ text' = [])
    (delivers : Delivers reads text) (delivers' : Delivers reads' text') :
    (∀ fuel, main env args times reads core fuel = main env args times reads' core fuel) ∧
      ∀ signum (monMaxSat : Option (EvalMaxSAT K)),
        signalHandler args times reads signum monMaxSat =
          signalHandler args times reads' signum monMaxSat := by
  have contents : SameContents text text' := by
    refine ⟨?_, ?_, empty⟩
    · rw [fileFormula_written expressible fits written,
        fileFormula_written expressible fits' written']
    · rw [document_written written, document_written written']
  have fitting := fitting_written expressible fits small written
  have fitting' := fitting_written expressible fits' small written'
  exact outputs_same env core (parse_same contents fitting fitting' delivers delivers' core args)
    fun i => checkFile_same contents fitting.range fitting'.range delivers delivers' i i

theorem formats_same_output_small :
    main referenceBackEnd sampleOptions ⟨[], []⟩ (fun _ => [[104, 32], [49, 32, 48]]) () 100 =
      main referenceBackEnd sampleOptions ⟨[], []⟩ (fun _ => [[112, 32, 119, 99, 110, 102, 32, 49, 32, 49,
        32, 53], [10, 53, 32, 49, 32, 48]]) () 100 := by
  have clause : ClauseText [1] ([32] ++ ([49] ++ ([32] ++ [48]))) :=
    .lit gap_space (by decide) (.plain (digit_text rfl rfl)) clause_end
  have new : FileText (Format.new.entries [([1], none)])
      ([] ++ ((104 :: ([32] ++ ([49] ++ ([32] ++ [48])))) ++ [])) :=
    .entry (by simp [Blank]) (.hard clause rfl) (.inl rfl) (.blank (by simp [Blank]))
  have line : FileText [.clause (some 5) [1]]
      ([10] ++ (([53] ++ ([32] ++ ([49] ++ ([32] ++ [48])))) ++ [])) :=
    .entry (by simp [Blank, isSpace]) (.soft (.plain (digit_text rfl rfl)) clause) (.inl rfl)
      (.blank (by simp [Blank]))
  have header : EntryText (.top (some 5)) (112 :: 32 :: ([] ++ ([119, 99, 110, 102] ++ ([32] ++
      ([49] ++ ([32] ++ ([49] ++ ([32] ++ [53])))))))) :=
    .top (by simp [Blank]) gap_space (.plain (digit_text rfl rfl)) gap_space (.plain (digit_text rfl rfl))
      gap_space (.plain (digit_text rfl rfl))
  have old : FileText ((Format.old 5).entries [([1], none)]) ([] ++ ((112 :: 32 :: ([] ++ ([119, 99,
      110, 102] ++ ([32] ++ ([49] ++ ([32] ++ ([49] ++ ([32] ++ [53])))))))) ++
      ([10] ++ (([53] ++ ([32] ++ ([49] ++ ([32] ++ [48])))) ++ [])))) :=
    .entry (by simp [Blank]) header (.inr rfl) line
  have fits : (Format.old 5).Fits [([1], none)] := by simp [Format.Fits]
  exact (@formats_same_output Unit _ _ _ _ [([1], none)] .new (.old 5) referenceBackEnd ()
    sampleOptions ⟨[], []⟩ ⟨by decide, by simp, by decide⟩ (by decide) trivial fits new old (by simp)
    ⟨by simp, fun _ => rfl⟩ ⟨by simp, fun _ => rfl⟩).1 100

end Formats

section Verdicts

variable {K' : Type} {env : Env K} {env' : Env K'}

end Verdicts

section WholeProgram
open Cadical
open Maxclique (Platform referencePlatform withCliqueSearch withCliqueSearch_clique)
variable {library : Core K} {patience : Nat} {base : Env K}

end WholeProgram
end EvalMaxSat
