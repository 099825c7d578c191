import EvalMaxSat.CheckedFiles
import EvalMaxSat.FirstSolves

/-!
The program on a whole file: loading, solving, checking and printing put together. The values
that it prints are an optimal solution of the file, its code says which of the verdicts it is,
and an interrupted run still answers with a solution as good as its bound.
-/
namespace EvalMaxSat
open Literals InputStreams InputStream MaxSatSolver EvalMaxSAT StepProgram

variable {K : Type} {env : Env K} {core : K} {s t : EvalMaxSAT K} {d : Story}
  {args : Arguments} {text : List Nat}

section Loading
variable {n : Nat} {hard : Cnf} {lits : Clause}

theorem configure_eq (s : EvalMaxSAT K) : configure args s = { s with
    delayStrategy := s.delayStrategy && !args.noDS
    multiSolveStrategy := s.multiSolveStrategy && !args.noMS
    ubStrategy := s.ubStrategy && !args.noUBS } := by
  unfold configure unactivateDelayStrategy unactivateMultiSolveStrategy unactivateUBStrategy
  cases args.noDS <;> cases args.noMS <;> cases args.noUBS <;> simp

theorem configure_newVar (s : EvalMaxSAT K) :
    MaxSatSolver.newVar (configure args s) = configure args (MaxSatSolver.newVar s) := by
  rw [configure_eq, configure_eq]
  rfl

theorem configure_nVars (s : EvalMaxSAT K) :
    MaxSatSolver.nVars (configure args s) = MaxSatSolver.nVars s := by
  rw [configure_eq]
  rfl

theorem configure_setNInputVars (n : Nat) (s : EvalMaxSAT K) :
    MaxSatSolver.setNInputVars n (configure args s) =
      configure args (MaxSatSolver.setNInputVars n s) := by
  rw [configure_eq, configure_eq]
  rfl

theorem configure_newVars (k : Nat) (s : EvalMaxSAT K) :
    newVar^[k] (configure args s) = configure args (newVar^[k] s) := by
  induction k generalizing s with
  | zero => rfl
  | succ k ih => rw [Function.iterate_succ_apply, Function.iterate_succ_apply, configure_newVar, ih]

theorem configure_createVars (lits : Clause) (s : EvalMaxSAT K) :
    lits.foldl (fun s lit => createVars lit s) (configure args s) =
      configure args (lits.foldl (fun s lit => createVars lit s) s) := by
  induction lits generalizing s with
  | nil => rfl
  | cons l lits ih =>
    rw [List.foldl_cons, List.foldl_cons, ← ih]
    unfold createVars
    rw [configure_nVars, configure_newVars]

theorem configure_addHard (within : ∀ l ∈ lits, l.natAbs ≤ n) :
    MaxSatSolver.addClause lits none (configure args (unweighted core n hard)) =
      withinInt (configure args (unweighted core n (hard ++ [lits]))) := by
  have added := @addHardClause_unweighted K core n hard lits within
  have zero : ∀ l, (configure args (unweighted core n hard)).weight l = 0 := by
    intro l
    have plain := @weight_unweighted K core n hard l
    rw [configure_eq]
    exact plain
  have clear : ∀ t : EvalMaxSAT K, (∀ l, t.weight l = 0) →
      t.addHardClause lits = { t with solver := t.solver.addClause lits } := by
    intro t zero
    unfold EvalMaxSAT.addHardClause
    split
    · rename_i l
      rw [EvalMaxSAT.clearUnit, if_pos (zero l)]
    · rfl
  rw [clear _ fun l => weight_unweighted l] at added
  have both : (configure args (unweighted core n hard)).addHardClause lits =
      configure args { unweighted core n hard with
        solver := (unweighted core n hard).solver.addClause lits } := by
    rw [clear _ zero, configure_eq, configure_eq]
  rw [added] at both
  exact congrArg withinInt both

theorem performCalls_configured (soft : List (Clause × Int)) {calls : List ClauseCall}
    (small : variablesOf n calls < 2 ^ 31) (e : Ending) :
    performCalls soft (configure args (unweighted core n hard)) calls e =
      performCalls (soft ++ softOf calls) (configure args
        (unweighted core (variablesOf n calls) (hard ++ hardOf calls))) [] e := by
  induction calls generalizing soft n hard with
  | nil =>
    rw [softOf, hardOf, List.filterMap_nil, List.filterMap_nil, List.append_nil, List.append_nil]
    rfl
  | cons c calls ih =>
    obtain ⟨lits, w⟩ := c
    cases w with
    | none =>
      have added := @configure_addHard K core args (largestVar n lits) hard lits
        (largestVar_bounds n lits).2
      have upto := variablesOf_le (largestVar n lits) calls
      have inside : (configure args (unweighted core (largestVar n lits)
          (hard ++ [lits]))).solver.nVar < 2 ^ 31 := by
        rw [configure_eq]
        exact Nat.lt_of_le_of_lt upto small
      rw [performCalls, configure_createVars, createVars_unweighted, added, withinInt, if_pos inside]
      simp only
      rw [ih soft small, List.append_assoc]
      rfl
    | some w =>
      rw [performCalls, configure_createVars, createVars_unweighted, ih _ small, List.append_assoc]
      rfl

theorem counted_configure {p m k : Nat} (counted : Counted s p m k) :
    Counted (configure args s) p m k := by
  rw [configure_eq]
  exact ⟨counted.weights, counted.entries, counted.known, counted.none_yet, counted.unsolved⟩

end Loading

section Story

theorem loaded_story {soft : List (Clause × Int)} (h : Described d s) (loaded : Loaded s)
    (spoken : ∀ c ∈ soft, d.OverVars c.1) (nonneg : ∀ c ∈ soft, 0 ≤ c.2)
    (small : d.total + (soft.map fun c => c.2.toNat).sum < 2 ^ 63) :
    ∃ t d', applyAll (softUpdates soft) s = some t ∧ Described d' t ∧ Loaded t ∧
      d'.vars = d.vars ∧ d'.hard = d.hard ∧
      d'.total = d.total + (soft.map fun c => c.2.toNat).sum ∧ t.nInputVars = s.nInputVars ∧
      ∀ a, d'.softCost a = d.softCost a + softLoss soft a := by
  induction soft generalizing d s with
  | nil => exact ⟨s, d, rfl, h, loaded, rfl, rfl, rfl, rfl, fun _ => rfl⟩
  | cons c soft ih =>
    simp only [List.map_cons, List.sum_cons] at small
    obtain ⟨r, call⟩ : ∃ r, s.addClause c.1 (some c.2) = some r := by
      unfold EvalMaxSAT.addClause
      simp only
      split
      · exact ⟨_, rfl⟩
      · rw [if_neg (by simp [loaded.first])]
        exact ⟨_, rfl⟩
    obtain ⟨d₁, h₁, loaded₁, vars₁, hard₁, total₁, inputs₁, cost₁⟩ := described_soft h loaded
      (spoken c (by simp)) (nonneg c (by simp)) (by omega)
      (show (s.addClause c.1 (some c.2)).map Prod.snd = some r.2 by
        rw [call]
        rfl)
    obtain ⟨t, d₂, rest, h₂, loaded₂, vars₂, hard₂, total₂, inputs₂, cost₂⟩ := ih h₁ loaded₁
      (fun e mem => by
        intro l lit
        rw [vars₁]
        exact spoken e (by simp [mem]) l lit)
      (fun e mem => nonneg e (by simp [mem])) (by rw [total₁]; omega)
    refine ⟨t, d₂, ?_, h₂, loaded₂, vars₂.trans vars₁, hard₂.trans hard₁, ?_,
      inputs₂.trans inputs₁, fun a => ?_⟩
    · rw [softUpdates, List.map_cons, applyAll, Update.apply, call, Option.bind_some]
      exact rest
    · rw [total₂, total₁, List.map_cons, List.sum_cons, Nat.add_assoc]
    · rw [cost₂, cost₁, softLoss, softLoss, List.map_cons, List.sum_cons, Nat.add_assoc]

theorem described_setting {u : Update} (h : Described d s) (loaded : Loaded s)
    (builds : d.Builds u) (free : u.load = 0) (same : d.record u 0 = d) (small : d.total < 2 ^ 63)
    (applied : u.apply s = some (0, t)) : Described d t ∧ Loaded t := by
  have after := described_call h loaded builds (by omega) applied
  rw [same] at after
  exact after

theorem described_configure (h : Described d s) (loaded : Loaded s) (small : d.total < 2 ^ 63) :
    Described d (configure args s) ∧ Loaded (configure args s) := by
  unfold configure
  have first : Described d (if args.noDS then s.unactivateDelayStrategy else s) ∧
      Loaded (if args.noDS then s.unactivateDelayStrategy else s) := by
    split
    · exact described_setting (u := .unactivateDelayStrategy) h loaded trivial rfl rfl small rfl
    · exact ⟨h, loaded⟩
  generalize (if args.noDS then s.unactivateDelayStrategy else s) = t at *
  have second : Described d (if args.noMS then t.unactivateMultiSolveStrategy else t) ∧
      Loaded (if args.noMS then t.unactivateMultiSolveStrategy else t) := by
    split
    · exact described_setting (u := .unactivateMultiSolveStrategy) first.1 first.2 trivial rfl rfl
        small rfl
    · exact first
  simp only
  generalize (if args.noMS then t.unactivateMultiSolveStrategy else t) = t at *
  split
  · exact described_setting (u := .unactivateUBStrategy) second.1 second.2 trivial rfl rfl
      small rfl
  · exact second

/-- A state in which the file has been loaded. -/
structure Prepared (text : List Nat) (d : Story) (s : EvalMaxSAT K) : Prop where
  described : Described d s
  loaded : Loaded s
  small : d.total < 2 ^ 63
  vars : ∀ v, v ∈ d.vars ↔ 1 ≤ v ∧ v ≤ fileVars text
  hard : d.hard = hardClauses text
  loss : ∀ a, d.softCost a = fileLoss text a
  inputs : s.nInputVars = fileVars text

theorem prepared_beforeSolve (prepared : Prepared text d s) : Prepared text d (beforeSolve s) := by
  unfold beforeSolve
  split
  · obtain ⟨described, loaded⟩ := described_setting (u := .disableOptimize) prepared.described
      prepared.loaded trivial rfl rfl prepared.small rfl
    exact ⟨described, loaded, prepared.small, prepared.vars, prepared.hard, prepared.loss,
      prepared.inputs⟩
  · exact prepared

theorem parse_text (core : K) (args : Arguments) (fitting : Fitting text) (nonempty : text ≠ [])
    {file : List (List Nat)} (pieces : ∀ r ∈ file, r ≠ []) (same : file.flatten = text) :
    parse (configure args (fresh core)) (StreamBuffer.start file) =
      performCalls (softOf (callsOf (fileFormula text))) (configure args
        (unweighted core (fileVars text) (hardClauses text))) [] (document text).ending := by
  have room := fitting.room
  have calls := signed_callsOf fitting.small
  subst same
  rw [parse_performs _ pieces nonempty, fileCalls_document maxWeight _ fitting.range.word, readCalls_eq,
    fresh_unweighted]
  unfold fileFormula at calls
  rw [calls]
  exact performCalls_configured [] (Nat.lt_of_le_of_lt (Nat.le_add_right _ _) room) _

theorem addSofts_text (core : K) (args : Arguments) (fitting : Fitting text)
    (applied : applyAll (softUpdates (softOf (callsOf (fileFormula text))))
      (configure args (EvalMaxSat.inputs core (callsOf (fileFormula text)))) = some t) :
    performCalls.addSofts (softOf (callsOf (fileFormula text)))
      (configure args (EvalMaxSat.inputs core (callsOf (fileFormula text)))) = .done t := by
  have room := fitting.room
  have counted := @counted_configure K _ args _ _ _ (counted_inputs core (callsOf (fileFormula text)))
  obtain ⟨u, again, upto⟩ := applyAll_soft counted fun c mem => softOf_within mem
  rw [applied, Option.some.injEq] at again
  rw [← again] at upto
  have start := counted.known
  have inside : t.solver.nVar < 2 ^ 31 := Nat.lt_of_le_of_lt upto room
  refine (addSofts_done fun _ => ?_).mpr ⟨applied, inside⟩
  rw [start]
  exact Nat.lt_of_le_of_lt (Nat.le_add_right _ _) room

theorem parse_prepared (core : K) (args : Arguments) (fitting : Fitting text)
    (nonempty : text ≠ []) (ends : (document text).ending = .endOfFile)
    {file : List (List Nat)} (pieces : ∀ r ∈ file, r ≠ []) (same : file.flatten = text) :
    ∃ s d, parse (configure args (fresh core)) (StreamBuffer.start file) = .done s ∧
      Prepared text d s := by
  obtain ⟨sum, nonneg⟩ := softOf_callsOf (fileFormula text)
  have small := fitting.small
  have nonzero : ∀ c ∈ callsOf (fileFormula text), ∀ l ∈ c.1, l ≠ 0 := by
    intro c mem
    obtain ⟨e, inFormula, rfl⟩ := List.mem_map.mp mem
    obtain ⟨mark, entry⟩ := readClauses_lits inFormula
    exact document_nonzero _ entry
  have start : Described (inputStory (fileVars text) (hardClauses text))
      (EvalMaxSat.inputs core (callsOf (fileFormula text))) := described_inputs core nonzero
  have zero : (inputStory (fileVars text) (hardClauses text)).total = 0 := rfl
  have spoken : ∀ c ∈ softOf (callsOf (fileFormula text)),
      (inputStory (fileVars text) (hardClauses text)).OverVars c.1 := by
    intro c mem l lit
    obtain ⟨call, inCalls, soft⟩ := List.mem_filterMap.mp mem
    obtain ⟨w, weight, rfl⟩ := Option.map_eq_some_iff.mp soft
    have := nonzero call inCalls l lit
    have upto := @variablesOf_mem 0 _ _ _ inCalls lit
    exact ⟨this, mem_inputVars.mpr ⟨by omega, upto⟩⟩
  obtain ⟨described, loaded⟩ := @described_configure K _ _ args start ⟨rfl, rfl, rfl⟩ (by omega)
  obtain ⟨t, d, applied, after, loaded', vars, hard, total, inputs, cost⟩ :=
    loaded_story described loaded spoken nonneg (by omega)
  have number : (configure args (EvalMaxSat.inputs core (callsOf (fileFormula text)))).nInputVars =
      fileVars text := by
    rw [configure_eq]
    rfl
  refine ⟨t, d, ?_, after, loaded', ?_, ?_, hard, ?_, inputs.trans number⟩
  · rw [parse_text core args fitting nonempty pieces same, ends, performCalls,
      configure_nVars, configure_setNInputVars]
    have count : MaxSatSolver.nVars (unweighted core (fileVars text) (hardClauses text)) =
        fileVars text := nVars_unweighted
    rw [count]
    exact addSofts_text core args fitting applied
  · omega
  · intro v
    rw [vars]
    exact mem_inputVars
  · intro a
    rw [cost]
    exact Nat.zero_add _

end Story

section Solutions

theorem getSolution_length (s : EvalMaxSAT K) : s.getSolution.length = s.nInputVars + 1 := by
  unfold EvalMaxSAT.getSolution
  split
  · rw [List.length_take]
    omega
  · rw [List.length_append, List.length_replicate]
    omega

theorem getSolution_values {v : Nat} (inside : v ≤ s.nInputVars) :
    assignment s.getSolution v = assignment s.solution v := by
  unfold EvalMaxSAT.getSolution
  split
  · unfold assignment
    rw [List.getD_eq_getElem?_getD, List.getD_eq_getElem?_getD, List.getElem?_take_of_lt (by omega)]
  · rw [assignment_pad]

theorem getSolution_worth (prepared : Prepared text d s) (same : t.nInputVars = s.nInputVars) :
    (Models (assignment t.getSolution) (hardClauses text) ↔
      Models (assignment t.solution) d.hard) ∧
    fileLoss text (assignment t.getSolution) = d.softCost (assignment t.solution) := by
  have agree : ∀ v ∈ d.vars, assignment t.getSolution v = assignment t.solution v := by
    intro v mem
    apply getSolution_values
    rw [same, prepared.inputs]
    exact ((prepared.vars v).mp mem).2
  rw [← prepared.hard, ← prepared.loss]
  exact ⟨Story.hard_over prepared.described.closed agree,
    Story.softCost_over prepared.described.closed agree⟩

theorem inputs_solveStep {e : Event StepKind (EvalMaxSAT K)} (step : SolveStep e) :
    e.after.nInputVars = e.before.nInputVars := by
  cases step with
  | enter _ _ => rfl
  | leave _ => rfl
  | inside ok =>
    obtain ⟨_, _, effect⟩ := ok
    by_cases bound : e.label = .bound
    · rw [bound] at effect
      obtain ⟨c, sol, eq, _⟩ := effect
      rw [eq]
    · have same := effect_aside effect bound
      simp only [EvalMaxSAT.aside, Prod.mk.injEq] at same
      exact same.2.2.2.2

/-- What a solve of a loaded file leaves. -/
structure Solved (text : List Nat) (b : Bool) (t : EvalMaxSAT K) : Prop where
  refuted : b = false → ∀ a, ¬ Models a (hardClauses text)
  inputs : t.nInputVars = fileVars text
  satisfied : b = true → Models (assignment t.getSolution) (hardClauses text)
  worth : b = true → fileLoss text (assignment t.getSolution) = t.getCost
  least : b = true → ∀ a, Models a (hardClauses text) → t.getCost ≤ fileLoss text a

/-- At this point of a solve, a bound that was found has a solution that is as good. -/
def Backed (text : List Nat) (s : EvalMaxSAT K) : Prop :=
  s.nInputVars = fileVars text ∧ (s.solutionCost ≠ maxWeight →
    Models (assignment s.getSolution) (hardClauses text) ∧
      fileLoss text (assignment s.getSolution) ≤ s.solutionCost)

/-- A step of a solve of a loaded file: no bound gets worse, and what is reported is no more than
what some solution costs. -/
structure Informed (text : List Nat) (e : Event StepKind (EvalMaxSAT K)) : Prop where
  before : Backed text e.before
  after : Backed text e.after
  word : e.before.solutionCost ≤ maxWeight
  lower : e.after.solutionCost ≤ e.before.solutionCost
  report : ∀ c, e.label = .report c → ∃ a, Models a (hardClauses text) ∧ fileLoss text a ≤ c

theorem backed_of_kept (prepared : Prepared text d s) (kept : Kept d t)
    (same : t.nInputVars = s.nInputVars) : Backed text t := by
  obtain ⟨models, worth⟩ := getSolution_worth prepared same
  refine ⟨same.trans prepared.inputs, fun found => ?_⟩
  obtain ⟨satisfied, upper⟩ := kept.stored.worth found
  exact ⟨models.mpr satisfied, by rw [worth]; exact upper⟩

theorem informed_steps {v : EvalMaxSAT K} {opening main : Trace K} {b : Bool}
    (prepared : Prepared text d s) (phases : Phases env s t v opening main b)
    (path : Chain s (Phases.trace s v opening main) v.stopped)
    (inputs : ∀ e ∈ Phases.trace s v opening main, e.after.nInputVars = s.nInputVars)
    (kept : ∀ e ∈ Phases.trace s v opening main, Kept d e.after) :
    ∀ e ∈ Phases.trace s v opening main, Informed text e := by
  have reports := first_reports prepared.small prepared.described prepared.loaded phases kept
  have first := prepared.loaded.first
  have start : Backed text s := ⟨prepared.inputs, fun found => absurd first found⟩
  have both := (chain_invariant (fun u => Backed text u ∧ u.solutionCost ≤ maxWeight) path
    ⟨start, Nat.le_of_eq first⟩ fun e mem _ =>
      ⟨backed_of_kept prepared (kept e mem) (inputs e mem), (kept e mem).stored.word⟩).2
  intro e mem
  obtain ⟨lowers, keeps⟩ := lowers_or_keeps prepared.loaded phases mem
  obtain ⟨⟨before, word⟩, after, _⟩ := both e mem
  refine ⟨before, after, word, ?_, fun c report => ?_⟩
  · by_cases bound : e.label = .bound
    · exact Nat.le_of_lt (lowers bound)
    · exact Nat.le_of_eq (keeps bound).1
  · obtain ⟨a, models, upper⟩ := reports e mem c report
    rw [prepared.hard] at models
    rw [prepared.loss] at upper
    exact ⟨a, models, upper⟩

theorem solves_file (sound : env.Sound) (prepared : Prepared text d s) :
    ∃ tr b t, (solve env).Ends s tr (.done b) t ∧ Solved text b t ∧ ∀ e ∈ tr, Informed text e := by
  have between := prepared.described.between
  obtain ⟨t, v, opening, main, b, phases, ends, optimal, kept⟩ :=
    first_kept sound prepared.described prepared.loaded prepared.small
  obtain ⟨path, steps⟩ := trace_steps between.sane between.idle phases
  obtain ⟨final, during⟩ := chain_invariant (fun u => u.nInputVars = s.nInputVars) path rfl
    fun e mem before => (inputs_solveStep (steps e mem)).trans before
  obtain ⟨models, worth⟩ := getSolution_worth prepared final
  refine ⟨_, b, _, ends, ⟨?_, final.trans prepared.inputs, ?_, ?_, ?_⟩,
    informed_steps prepared phases path (fun e mem => (during e mem).2) kept⟩
  · intro no a
    rw [← prepared.hard]
    exact optimal.refuted no a
  · intro yes
    exact models.mpr (optimal.satisfied yes)
  · intro yes
    rw [worth]
    exact optimal.worth yes
  · intro yes a satisfied
    rw [← prepared.hard] at satisfied
    rw [← prepared.loss]
    exact optimal.least yes a satisfied

theorem getSolution_covers (inputs : s.nInputVars = fileVars text) :
    ∀ l ∈ (fileFormula text).flatMap Prod.fst, l.natAbs < s.getSolution.length := by
  intro l mem
  have upto := fileVars_mem mem
  rw [getSolution_length, inputs]
  omega

end Solutions

section Processes
variable {times : Times} {reads : Nat → List (List Nat)}

/-- The process that prints an optimal solution, after the costs that were found on the way. -/
def optimumProcess (args : Arguments) (times : Times) (reports : List Nat) (cost : Nat)
    (solution : List Bool) : Process :=
  Process.finished times (Process.printed (reportLines reports) (Process.printed
    (bytes "c nombre de var = " ++ decimalText solution.length ++ newline)
    (if args.bench ≠ 0 then
      ⟨bytes args.file ++ bytes "\t" ++ (decimalText cost ++ bytes "\t" ++ times.bench ++ newline),
        [], .code 0⟩
    else ⟨bytes "o " ++ answerText args.old "s OPTIMUM FOUND" cost solution, [], .code 30⟩)))

def refutedProcess (args : Arguments) (times : Times) : Process :=
  Process.finished times (if args.bench ≠ 0 then
    ⟨bytes args.file ++ bytes "\t" ++
      (decimalText maxWeight ++ bytes "\t" ++ times.bench ++ newline), [], .code 0⟩
  else ⟨bytes "s UNSATISFIABLE" ++ newline, [], .code 20⟩)

/-- Each reported cost is one that a solution of the file does not exceed. -/
def Reported (text : List Nat) (reports : List Nat) : Prop :=
  ∀ c ∈ reports, ∃ a, Models a (hardClauses text) ∧ fileLoss text a ≤ c

theorem reported_steps {tr : Trace K} (informed : ∀ e ∈ tr, Informed text e) :
    Reported text (reportsOf tr) := by
  intro c mem
  obtain ⟨e, inTrace, cost⟩ := List.mem_filterMap.mp mem
  split at cost
  · rename_i c' label
    rw [← Option.some.inj cost]
    exact (informed e inTrace).report c' label
  · simp at cost

theorem reported_refuted {reports : List Nat} (reported : Reported text reports)
    (refuted : ∀ a, ¬ Models a (hardClauses text)) : reports = [] := by
  apply List.eq_nil_iff_forall_not_mem.mpr
  intro c mem
  obtain ⟨a, models, _⟩ := reported c mem
  exact refuted a models

theorem conclude_true (fitting : Fitting text) (ends : (document text).ending = .endOfFile)
    {file : List (List Nat)} (pieces : ∀ r ∈ file, r ≠ []) (same : file.flatten = text)
    (solved : Solved text true t) (reports : List Nat) :
    Process.finished times (Process.printed (reportLines reports) (Process.printed
      (bytes "c nombre de var = " ++ decimalText t.getSolution.length ++ newline)
      (conclude args times file true t.getSolution))) =
        optimumProcess args times reports t.getCost t.getSolution := by
  have covered := getSolution_covers solved.inputs
  have value : (if Models (assignment t.getSolution) (hardClauses text)
      then fileLoss text (assignment t.getSolution) else maxWeight) = t.getCost := by
    rw [if_pos (solved.satisfied rfl), solved.worth rfl]
  unfold conclude optimumProcess
  congr 3
  split
  · unfold benchLine
    obtain ⟨longer, check, place⟩ := afterCheck_file fitting ends pieces same t.getSolution
      fun cost _ => ⟨decimalText cost ++ bytes "\t" ++ times.bench ++ newline, [], .code 0⟩
    rw [check, value]
    rfl
  · obtain ⟨longer, check, place⟩ := afterCheck_file fitting ends pieces same t.getSolution
      fun cost solution => ⟨answerText args.old "s OPTIMUM FOUND" cost solution, [], .code 30⟩
    rw [if_pos rfl, check, value, lengthened_covered place covered]
    rfl

theorem conclude_false (fitting : Fitting text) (ends : (document text).ending = .endOfFile)
    {file : List (List Nat)} (pieces : ∀ r ∈ file, r ≠ []) (same : file.flatten = text)
    (refuted : ∀ a, ¬ Models a (hardClauses text)) :
    Process.finished times (conclude args times file false []) = refutedProcess args times := by
  unfold conclude refutedProcess
  congr 1
  split
  · unfold benchLine
    obtain ⟨longer, check, place⟩ := afterCheck_file fitting ends pieces same []
      fun cost _ => ⟨decimalText cost ++ bytes "\t" ++ times.bench ++ newline, [], .code 0⟩
    rw [check, if_neg (refuted _)]
    rfl
  · rfl

def verdictProcess (args : Arguments) (times : Times) (reports : List Nat) (b : Bool)
    (t : EvalMaxSAT K) : Process :=
  if b then optimumProcess args times reports t.getCost t.getSolution else refutedProcess args times

theorem afterSolve_file (sound : env.Sound) (prepared : Prepared text d s) (fitting : Fitting text)
    (ends : (document text).ending = .endOfFile) (pieces : ∀ i, ∀ r ∈ reads i, r ≠ [])
    (same : ∀ i, (reads i).flatten = text) : ∃ enough reports b, ∃ t : EvalMaxSAT K,
      Solved text b t ∧ Reported text reports ∧ ∀ fuel, enough ≤ fuel →
        (afterParse env args times reads fuel (.done s)).map (Process.finished times) =
          some (verdictProcess args times reports b t) := by
  obtain ⟨tr, b, t, run, solved, informed⟩ := solves_file sound (prepared_beforeSolve prepared)
  obtain ⟨ended, enough, run⟩ := run
  have reported := reported_steps informed
  refine ⟨enough, reportsOf tr, b, t, solved, reported, ?_⟩
  intro fuel more
  have whole := Prog.run_mono (solve env) more (by rw [run]; exact ended)
  rw [afterParse, whole, run]
  cases b with
  | false =>
    have silent := reported_refuted reported (solved.refuted rfl)
    rw [afterSolve, silent]
    exact congrArg some (conclude_false fitting ends (pieces 1) (same 1) (solved.refuted rfl))
  | true =>
    obtain ⟨longer, check, _⟩ := afterCheck_file fitting ends (pieces 1) (same 1) t.getSolution
      fun _ _ => conclude args times (reads 2) true t.getSolution
    rw [afterSolve, check]
    exact congrArg some (conclude_true fitting ends (pieces 2) (same 2) solved (reportsOf tr))

theorem main_solved (sound : env.Sound) (core : K) (args : Arguments) (times : Times)
    (fitting : Fitting text) (nonempty : text ≠ [])
    (ends : (document text).ending = .endOfFile) (pieces : ∀ i, ∀ r ∈ reads i, r ≠ [])
    (same : ∀ i, (reads i).flatten = text) :
    ∃ enough reports b, ∃ t : EvalMaxSAT K, Solved text b t ∧ Reported text reports ∧
      ∀ fuel, enough ≤ fuel → main env args times reads core fuel =
        some (verdictProcess args times reports b t) := by
  obtain ⟨s, d, parsed, prepared⟩ :=
    parse_prepared core args fitting nonempty ends (pieces 0) (same 0)
  obtain ⟨enough, reports, b, t, solved, reported, answer⟩ :=
    @afterSolve_file K env s d args text times reads sound prepared fitting ends pieces same
  refine ⟨enough, reports, b, t, solved, reported, ?_⟩
  intro fuel more
  unfold main
  rw [parsed]
  exact answer fuel more

/-- The assertion of `solveFile`: after a solve that succeeds, the checker finds the cost that
the solver claims, and has no need to make the solution longer. -/
theorem solved_cost_checked (sound : env.Sound) (core : K) (args : Arguments)
    (fitting : Fitting text) (nonempty : text ≠ []) (ends : (document text).ending = .endOfFile)
    (pieces : ∀ i, ∀ r ∈ reads i, r ≠ []) (same : ∀ i, (reads i).flatten = text) :
    ∃ s tr b t, parse (configure args (fresh core)) (StreamBuffer.start (reads 0)) = .done s ∧
      (solve env).Ends (beforeSolve s) tr (.done b) t ∧ (b = true →
        checkFile t.getSolution (StreamBuffer.start (reads 1)) =
          .done (t.getCost, t.getSolution)) := by
  obtain ⟨s, d, parsed, prepared⟩ :=
    parse_prepared core args fitting nonempty ends (pieces 0) (same 0)
  obtain ⟨tr, b, t, run, solved, _⟩ := solves_file sound (prepared_beforeSolve prepared)
  refine ⟨s, tr, b, t, parsed, run, ?_⟩
  intro yes
  have small : 0 + softWeights (fileFormula text) < 2 ^ 63 := by
    rw [Nat.zero_add]
    exact fitting.small
  obtain ⟨longer, done, place⟩ := settle_done small t.getSolution
  have satisfied := solved.satisfied yes
  have worth := solved.worth yes
  unfold hardClauses at satisfied
  unfold fileLoss at worth
  rw [if_pos satisfied, worth, Nat.zero_add,
    lengthened_covered place (getSolution_covers solved.inputs)] at done
  rw [checkFile_text fitting.range (pieces 1) (same 1), ends]
  exact done

theorem solved_cost_checked_small : ∃ (s : EvalMaxSAT Unit) (tr : Trace Unit) (b : Bool)
    (t : EvalMaxSAT Unit),
    parse (configure sampleOptions (fresh ())) (StreamBuffer.start sampleFile) = .done s ∧
      (solve referenceBackEnd).Ends (beforeSolve s) tr (.done b) t ∧ (b = true →
        checkFile t.getSolution (StreamBuffer.start sampleFile) =
          .done (t.getCost, t.getSolution)) :=
  @solved_cost_checked _ _ _ (fun _ => sampleFile) reference_sound () sampleOptions
    sampleFile_fitting (by simp [sampleFile, bytes]) sampleFile_ends (fun _ => sampleFile_pieces)
    (fun _ => rfl)

/-- The solver as a signal finds it in the middle of the step `e`: the handler sees no other parts of
it than these two. -/
structure Amid (e : Event StepKind (EvalMaxSAT K)) (u : EvalMaxSAT K) : Prop where
  inputs : u.nInputVars = e.before.nInputVars
  solution : u.solution = e.before.solution ∨ u.solution = e.after.solution

/-- Between the two assignments of a new bound the new cost stands beside the old solution. -/
theorem amid_torn (e : Event StepKind (EvalMaxSAT K)) :
    Amid e { e.before with solutionCost := e.after.solutionCost } := ⟨rfl, Or.inl rfl⟩

theorem getSolution_congr {u : EvalMaxSAT K} (inputs : u.nInputVars = s.nInputVars)
    (solution : u.solution = s.solution) : u.getSolution = s.getSolution := by
  unfold EvalMaxSAT.getSolution
  rw [inputs, solution]

/-- The values that a signal finds satisfy the hard clauses and cost at most `c`, and they are the
answer. -/
structure AnswersWithin (args : Arguments) (times : Times) (reads : Nat → List (List Nat))
    (text : List Nat) (c : Nat) (u : EvalMaxSAT K) : Prop where
  models : Models (assignment u.getSolution) (hardClauses text)
  upper : fileLoss text (assignment u.getSolution) ≤ c
  answer : ∀ signum, signalHandler args times reads signum (some u) =
    answeredSignal args times signum (fileLoss text (assignment u.getSolution)) u.getSolution

theorem answers_backed (normal : args.bench = 0) (fitting : Fitting text)
    (ends : (document text).ending = .endOfFile) (pieces : ∀ i, ∀ r ∈ reads i, r ≠ [])
    (same : ∀ i, (reads i).flatten = text) (backed : Backed text s)
    (found : s.solutionCost ≠ maxWeight) :
    AnswersWithin args times reads text s.solutionCost s := by
  obtain ⟨inputs, backing⟩ := backed
  obtain ⟨satisfied, upper⟩ := backing found
  obtain ⟨shown, place, answer⟩ := interrupted_file args normal times pieces same fitting ends s
  rw [lengthened_covered place (getSolution_covers inputs), if_pos satisfied] at answer
  refine ⟨satisfied, upper, fun signum => ?_⟩
  unfold signalHandler
  rw [Option.elim_some, answer]
  rfl

theorem answers_congr {u : EvalMaxSAT K} {c : Nat} (inputs : u.nInputVars = s.nInputVars)
    (solution : u.solution = s.solution) (answers : AnswersWithin args times reads text c s) :
    AnswersWithin args times reads text c u := by
  have same := getSolution_congr inputs solution
  refine ⟨by rw [same]; exact answers.models, by rw [same]; exact answers.upper, fun signum => ?_⟩
  rw [same, ← answers.answer signum]
  unfold signalHandler interrupted
  rw [Option.elim_some, Option.elim_some, same]

theorem answers_amid (normal : args.bench = 0) (fitting : Fitting text)
    (ends : (document text).ending = .endOfFile) (pieces : ∀ i, ∀ r ∈ reads i, r ≠ [])
    (same : ∀ i, (reads i).flatten = text) {e : Event StepKind (EvalMaxSAT K)}
    (informed : Informed text e) {u : EvalMaxSAT K} (amid : Amid e u)
    (found : e.before.solutionCost ≠ maxWeight) :
    AnswersWithin args times reads text e.before.solutionCost u := by
  have lower := informed.lower
  have word := informed.word
  rcases amid.solution with old | new
  · exact answers_congr amid.inputs old
      (answers_backed normal fitting ends pieces same informed.before found)
  · have inputs : u.nInputVars = e.after.nInputVars :=
      amid.inputs.trans (informed.before.1.trans informed.after.1.symm)
    have after : AnswersWithin args times reads text e.after.solutionCost e.after :=
      answers_backed normal fitting ends pieces same informed.after (by omega)
    have answers := answers_congr inputs new after
    exact ⟨answers.models, answers.upper.trans lower, answers.answer⟩

/-- While the program solves a file, a signal after a bound was found is answered with a solution of
the file that is at least as good as the bound, also where the signal comes in the middle of a step. -/
theorem interrupted_solve_answers (sound : env.Sound) (core : K) (args : Arguments)
    (normal : args.bench = 0) (times : Times) (fitting : Fitting text) (nonempty : text ≠ [])
    (ends : (document text).ending = .endOfFile) (pieces : ∀ i, ∀ r ∈ reads i, r ≠ [])
    (same : ∀ i, (reads i).flatten = text) :
    ∃ s tr b t, parse (configure args (fresh core)) (StreamBuffer.start (reads 0)) = .done s ∧
      (solve env).Ends (beforeSolve s) tr (.done b) t ∧ ∀ e ∈ tr,
        (∀ u, Amid e u → e.before.solutionCost ≠ maxWeight →
          AnswersWithin args times reads text e.before.solutionCost u) ∧
        (e.after.solutionCost ≠ maxWeight →
          AnswersWithin args times reads text e.after.solutionCost e.after) := by
  obtain ⟨s, d, parsed, prepared⟩ :=
    parse_prepared core args fitting nonempty ends (pieces 0) (same 0)
  obtain ⟨tr, b, t, run, _, informed⟩ := solves_file sound (prepared_beforeSolve prepared)
  refine ⟨s, tr, b, t, parsed, run, fun e mem => ⟨fun u amid found => ?_, fun found => ?_⟩⟩
  · exact answers_amid normal fitting ends pieces same (informed e mem) amid found
  · exact answers_backed normal fitting ends pieces same (informed e mem).after found

theorem interrupted_solve_answers_small : ∃ (s : EvalMaxSAT Unit) (tr : Trace Unit) (b : Bool)
    (t : EvalMaxSAT Unit),
    parse (configure sampleOptions (fresh ())) (StreamBuffer.start sampleFile) = .done s ∧
      (solve referenceBackEnd).Ends (beforeSolve s) tr (.done b) t ∧
      ∀ e ∈ tr, e.before.solutionCost ≠ maxWeight →
        AnswersWithin sampleOptions ⟨[], []⟩ (fun _ => sampleFile) sampleFile.flatten
          e.before.solutionCost { e.before with solutionCost := e.after.solutionCost } := by
  obtain ⟨s, tr, b, t, parsed, run, answers⟩ := @interrupted_solve_answers _ _ _
    (fun _ => sampleFile) reference_sound () sampleOptions rfl ⟨[], []⟩ sampleFile_fitting
    (by simp [sampleFile, bytes]) sampleFile_ends (fun _ => sampleFile_pieces) (fun _ => rfl)
  exact ⟨s, tr, b, t, parsed, run, fun e mem => (answers e mem).1 _ (amid_torn e)⟩

theorem finished_ended (times : Times) (p : Process) : (p.finished times).ended = p.ended := by
  unfold Process.finished
  split <;> rfl

theorem main_refused {complaint : Option Complaint} {s : EvalMaxSAT K} (normal : args.bench = 0)
    (read : parse (configure args (fresh core)) (StreamBuffer.start (reads 0)) =
      .refused complaint s) :
    ∃ p, (∀ fuel, main env args times reads core fuel = some p) ∧ p.ended = .code 20 := by
  refine ⟨Process.finished times (Process.warned
    (complaint.toList ++ [⟨"Unable to read the file " ++ args.file, none⟩])
    (conclude args times (reads 1) false [])), fun fuel => ?_, ?_⟩
  · unfold main
    rw [read, afterParse]
    rfl
  · rw [finished_ended]
    unfold conclude
    rw [if_neg (by simp [normal])]
    rfl

/-- What the code of the process says: 30 that there is a solution; 20 that there is none, or
that the loader refused the file; and a complaint is one of the loader. -/
theorem exit_codes (sound : env.Sound) (core : K) (args : Arguments) (normal : args.bench = 0)
    (times : Times) (fitting : Fitting text) (pieces : ∀ i, ∀ r ∈ reads i, r ≠ [])
    (same : ∀ i, (reads i).flatten = text) :
    ∃ enough p, (∀ fuel, enough ≤ fuel → main env args times reads core fuel = some p) ∧
      (p.ended = .code 30 ↔ text ≠ [] ∧ (document text).ending = .endOfFile ∧
        ∃ a, Models a (hardClauses text)) ∧
      (p.ended = .code 20 ↔ text = [] ∨ (∃ e, (document text).ending = .refused e) ∨
        (document text).ending = .endOfFile ∧ ∀ a, ¬ Models a (hardClauses text)) ∧
      ∀ e, p.ended = .complains e ↔ (document text).ending = .exits e := by
  by_cases empty : text = []
  · have read : parse (configure args (fresh core)) (StreamBuffer.start (reads 0)) =
        .refused none (configure args (fresh core)) := by
      rw [parse_refills (pieces 0), same 0, empty]
      rfl
    obtain ⟨p, runs, code⟩ := @main_refused K env core args times reads _ _ normal read
    have ends : (document text).ending = .endOfFile := by
      have blank : Blank [] := by simp [Blank]
      rw [empty, document_written (.blank blank)]
    refine ⟨0, p, fun fuel _ => runs fuel, ?_⟩
    rw [code, ends]
    simp [empty]
  · have read := parse_text core args fitting empty (pieces 0) (same 0)
    cases ends : (document text).ending with
    | exits e =>
      rw [ends, performCalls] at read
      refine ⟨0, Process.finished times ⟨[], [], .complains e⟩, fun fuel _ => ?_, ?_⟩
      · unfold main
        rw [read]
        rfl
      · rw [finished_ended]
        simp [empty]
    | refused e =>
      rw [ends, performCalls] at read
      obtain ⟨p, runs, code⟩ := @main_refused K env core args times reads _ _ normal read
      refine ⟨0, p, fun fuel _ => runs fuel, ?_⟩
      rw [code]
      simp
    | endOfFile =>
      obtain ⟨enough, reports, b, t, solved, _, answer⟩ :=
        @main_solved K env text reads sound core args times fitting empty ends pieces same
      refine ⟨enough, _, answer, ?_⟩
      cases b with
      | true =>
        have models : ∃ a, Models a (hardClauses text) := ⟨_, solved.satisfied rfl⟩
        have code : (verdictProcess args times reports true t).ended = .code 30 := by
          simp [verdictProcess, optimumProcess, finished_ended, Process.printed, normal]
        rw [code]
        simp [empty, models]
      | false =>
        have none := solved.refuted rfl
        have code : (verdictProcess args times reports false t).ended = .code 20 := by
          simp [verdictProcess, refutedProcess, finished_ended, normal]
        rw [code]
        simp [none]

theorem exit_codes_small : ∃ enough p,
    (∀ fuel, enough ≤ fuel →
      main referenceBackEnd sampleOptions ⟨[], []⟩ (fun _ => sampleFile) () fuel = some p) ∧
      p.ended = .code 30 := by
  obtain ⟨enough, p, runs, optimum, _, _⟩ := @exit_codes _ _ _ (fun _ => sampleFile)
    reference_sound () sampleOptions rfl ⟨[], []⟩ sampleFile_fitting (fun _ => sampleFile_pieces)
    (fun _ => rfl)
  refine ⟨enough, p, runs, optimum.mpr ⟨by simp [sampleFile, bytes], sampleFile_ends, ?_⟩⟩
  rw [sampleFile_hard]
  exact ⟨fun _ => true, by simp [Models, Holds, litTrue]⟩

end Processes
end EvalMaxSat
