import EvalMaxSat.WrittenFiles
import EvalMaxSat.Retention

/-!
Loading a file into a fresh object is the same as creating the variables, adding the hard clauses
and then the soft ones.
-/
namespace EvalMaxSat
open Literals InputStreams InputStream MaxSatSolver EvalMaxSAT

variable {K : Type} {core : K} {s t : EvalMaxSAT K}

section Calls

/-- What several calls leave, unless the process exits. -/
def applyAll : List Update → EvalMaxSAT K → Option (EvalMaxSAT K)
  | [], s => some s
  | u :: us, s => (u.apply s).bind fun r => applyAll us r.2

theorem applyAll_append (us vs : List Update) (s : EvalMaxSAT K) :
    applyAll (us ++ vs) s = (applyAll us s).bind (applyAll vs) := by
  induction us generalizing s with
  | nil => rfl
  | cons u us ih =>
    rw [List.cons_append, applyAll, applyAll]
    cases u.apply s with
    | none => rfl
    | some r => exact ih r.2

def largestVar (n : Nat) (lits : Clause) : Nat := lits.foldl (fun n l => max n l.natAbs) n

def variablesOf (n : Nat) (calls : List ClauseCall) : Nat :=
  calls.foldl (fun n c => largestVar n c.1) n

def hardOf (calls : List ClauseCall) : Cnf :=
  calls.filterMap fun c => if c.2 = none then some c.1 else none

def softOf (calls : List ClauseCall) : List (Clause × Int) :=
  calls.filterMap fun c => c.2.map fun w => (c.1, w)

def softUpdates (soft : List (Clause × Int)) : List Update :=
  soft.map fun c => .addClause c.1 (some c.2)

def loadingUpdates (calls : List ClauseCall) : List Update :=
  List.replicate (variablesOf 0 calls) .newVar ++ ((hardOf calls).map fun c => .addClause c none) ++
    .setNInputVars (variablesOf 0 calls) :: softUpdates (softOf calls)

theorem largestVar_bounds (n : Nat) (lits : Clause) :
    n ≤ largestVar n lits ∧ ∀ l ∈ lits, l.natAbs ≤ largestVar n lits := foldl_max_bound lits n

theorem variablesOf_le (n : Nat) (calls : List ClauseCall) : n ≤ variablesOf n calls := by
  induction calls generalizing n with
  | nil => exact Nat.le_refl n
  | cons c calls ih => exact (largestVar_bounds n c.1).1.trans (ih _)

theorem variablesOf_mem {n : Nat} {calls : List ClauseCall} {c : ClauseCall} {l : Int}
    (mem : c ∈ calls) (lit : l ∈ c.1) : l.natAbs ≤ variablesOf n calls := by
  induction calls generalizing n with
  | nil => exact absurd mem (List.not_mem_nil)
  | cons d calls ih =>
    rcases List.mem_cons.mp mem with rfl | mem
    · exact ((largestVar_bounds n c.1).2 l lit).trans (variablesOf_le _ calls)
    · exact ih mem

end Calls

section Empty
variable {n k : Nat} {hard : Cnf} {lits : Clause}

/-- `n` variables without weight and some hard clauses. -/
def unweighted (core : K) (n : Nat) (hard : Cnf) : EvalMaxSAT K :=
  { fresh core with
    poids := ⟨List.replicate (n + 1) 0⟩
    mapAssum2Card := List.replicate (n + 1) none
    solver := ⟨core, n, hard, .unknown⟩ }

theorem nVars_unweighted : (unweighted core n hard).nVars = n := by
  rw [EvalMaxSAT.nVars, unweighted, WeightVector.size, List.length_replicate]
  rfl

theorem newVar_unweighted : (unweighted core n hard).newVar.2 = unweighted core (n + 1) hard := by
  simp only [unweighted, EvalMaxSAT.newVar, Solver_cadical.newVar, WeightVector.pushBack,
    List.replicate_succ' (n := n + 1)]

theorem newVars_unweighted (k : Nat) : newVar^[k] (unweighted core n hard) =
    unweighted core (n + k) hard := by
  induction k generalizing n with
  | zero => rfl
  | succ k ih =>
    rw [Function.iterate_succ_apply]
    have next : MaxSatSolver.newVar (unweighted core n hard) = unweighted core (n + 1) hard :=
      newVar_unweighted
    rw [next, ih]
    congr 1
    omega

theorem createVars_unweighted (lits : Clause) :
    lits.foldl (fun s lit => createVars lit s) (unweighted core n hard) =
      unweighted core (largestVar n lits) hard := by
  induction lits generalizing n with
  | nil => rfl
  | cons l lits ih =>
    have count : MaxSatSolver.nVars (unweighted core n hard) = n := nVars_unweighted
    rw [List.foldl_cons, createVars, count, newVars_unweighted, ih, largestVar, largestVar,
      List.foldl_cons]
    congr 2
    omega

theorem weight_unweighted (l : Int) : (unweighted core n hard).weight l = 0 := by
  have zero : (List.replicate (n + 1) (0 : Int)).getD l.natAbs 0 = 0 := by
    rw [List.getD_eq_getElem?_getD, List.getElem?_replicate]
    split <;> rfl
  simp only [EvalMaxSAT.weight, unweighted, WeightVector.get, zero]
  split <;> rfl

theorem addHardClause_unweighted (within : ∀ l ∈ lits, l.natAbs ≤ n) :
    (unweighted core n hard).addHardClause lits = unweighted core n (hard ++ [lits]) := by
  have count := (addClause_count lits (unweighted core n hard).solver).2.mpr within
  have add : (unweighted core n hard).solver.addClause lits = ⟨core, n, hard ++ [lits], .unknown⟩ := by
    simp only [Solver_cadical.addClause, Solver_cadical.mk.injEq]
    exact ⟨rfl, count, rfl, rfl⟩
  have same : { unweighted core n hard with
      solver := (unweighted core n hard).solver.addClause lits } =
      unweighted core n (hard ++ [lits]) := by
    rw [add]
    rfl
  unfold EvalMaxSAT.addHardClause
  split
  · rename_i lit
    rw [EvalMaxSAT.clearUnit, if_pos (weight_unweighted lit)]
    exact same
  · exact same

theorem fresh_unweighted (core : K) : fresh core = unweighted core 0 [] := rfl

theorem added_unweighted (within : ∀ l ∈ lits, l.natAbs ≤ n) :
    MaxSatSolver.addClause lits none (unweighted core n hard) =
      withinInt (unweighted core n (hard ++ [lits])) :=
  congrArg withinInt (addHardClause_unweighted within)

theorem performCalls_unweighted (soft : List (Clause × Int)) {calls : List ClauseCall}
    (small : variablesOf n calls < 2 ^ 31) (e : Ending) :
    performCalls soft (unweighted core n hard) calls e = performCalls (soft ++ softOf calls)
      (unweighted core (variablesOf n calls) (hard ++ hardOf calls)) [] e := by
  induction calls generalizing soft n hard with
  | nil =>
    rw [softOf, hardOf, List.filterMap_nil, List.filterMap_nil, List.append_nil, List.append_nil]
    rfl
  | cons c calls ih =>
    obtain ⟨lits, w⟩ := c
    cases w with
    | none =>
      have upto := variablesOf_le (largestVar n lits) calls
      have inside : (unweighted core (largestVar n lits) (hard ++ [lits])).solver.nVar < 2 ^ 31 :=
        Nat.lt_of_le_of_lt upto small
      rw [performCalls, createVars_unweighted, added_unweighted (largestVar_bounds n lits).2, withinInt,
        if_pos inside]
      dsimp only
      rw [ih soft small, List.append_assoc]
      rfl
    | some w =>
      rw [performCalls, createVars_unweighted, ih _ small, List.append_assoc]
      rfl

theorem performCalls_done {soft : List (Clause × Int)} {calls : List ClauseCall} {e : Ending}
    (bounded : soft = [] → n < 2 ^ 31)
    (done : performCalls soft (unweighted core n hard) calls e = .done t) :
    e = .endOfFile ∧ (soft ++ softOf calls = [] → variablesOf n calls < 2 ^ 31) ∧
      performCalls.addSofts (soft ++ softOf calls) ((unweighted core (variablesOf n calls)
        (hard ++ hardOf calls)).setNInputVars (variablesOf n calls)) = .done t := by
  induction calls generalizing soft n hard with
  | nil =>
    have count : MaxSatSolver.nVars (unweighted core n hard) = n := nVars_unweighted
    have no_hard : hardOf [] = [] := rfl
    have no_soft : softOf [] = [] := rfl
    rw [no_soft, no_hard, List.append_nil, List.append_nil]
    cases e with
    | endOfFile =>
      rw [performCalls, count] at done
      exact ⟨rfl, bounded, done⟩
    | exits e => simp [performCalls] at done
    | refused e => simp [performCalls] at done
  | cons c calls ih =>
    obtain ⟨lits, w⟩ := c
    cases w with
    | none =>
      rw [performCalls, createVars_unweighted, added_unweighted (largestVar_bounds n lits).2,
        withinInt] at done
      by_cases inside : (unweighted core (largestVar n lits) (hard ++ [lits])).solver.nVar < 2 ^ 31
      · rw [if_pos inside] at done
        have rest := ih (fun _ => inside) done
        rw [List.append_assoc] at rest
        exact rest
      · rw [if_neg inside] at done
        simp at done
    | some w =>
      rw [performCalls, createVars_unweighted] at done
      have rest := ih (fun empty => absurd empty (by simp)) done
      rw [List.append_assoc] at rest
      exact rest

theorem applyAll_newVars (k : Nat) : applyAll (List.replicate k .newVar) (unweighted core n hard) =
    some (unweighted core (n + k) hard) := by
  induction k generalizing n with
  | zero => rfl
  | succ k ih =>
    rw [List.replicate_succ, applyAll, Update.apply, Option.bind_some, newVar_unweighted, ih]
    congr 2
    omega

theorem applyAll_hard {more : Cnf} (within : ∀ lits ∈ more, ∀ l ∈ lits, l.natAbs ≤ n) :
    applyAll (more.map fun c => .addClause c none) (unweighted core n hard) =
      some (unweighted core n (hard ++ more)) := by
  induction more generalizing hard with
  | nil =>
    rw [List.append_nil]
    rfl
  | cons lits more ih =>
    have added : (unweighted core n hard).addClause lits none =
        some (0, unweighted core n (hard ++ [lits])) :=
      congrArg (fun s => some (0, s)) (addHardClause_unweighted (within lits (by simp)))
    rw [List.map_cons, applyAll, Update.apply, added, Option.bind_some,
      ih (fun c mem => within c (by simp [mem])), List.append_assoc]
    rfl

end Empty

section Loads

theorem applyAll_vars {us : List Update} (applied : applyAll us s = some t) :
    s.solver.nVar ≤ t.solver.nVar := by
  induction us generalizing s with
  | nil => rw [← Option.some.inj applied]
  | cons u us ih =>
    obtain ⟨r, call, rest⟩ := Option.bind_eq_some_iff.mp applied
    exact (retains_apply call).2.trans (ih rest)

theorem addSofts_done {soft : List (Clause × Int)} (bounded : soft = [] → s.solver.nVar < 2 ^ 31) :
    performCalls.addSofts soft s = .done t ↔
      applyAll (softUpdates soft) s = some t ∧ t.solver.nVar < 2 ^ 31 := by
  induction soft generalizing s with
  | nil =>
    simp only [performCalls.addSofts, softUpdates, List.map_nil, applyAll, FileEnd.done.injEq,
      Option.some.injEq]
    constructor
    · rintro rfl
      exact ⟨rfl, bounded rfl⟩
    · rintro ⟨same, _⟩
      exact same
  | cons c soft ih =>
    have added : MaxSatSolver.addClause c.1 (some c.2) s = (s.addClause c.1 (some c.2)).elim
      (.error softTooLate) fun r => withinInt r.2 := rfl
    rw [performCalls.addSofts, added, softUpdates, List.map_cons, applyAll, Update.apply]
    cases s.addClause c.1 (some c.2) with
    | none => simp
    | some r =>
      rw [Option.elim_some, Option.bind_some, withinInt]
      by_cases inside : r.2.solver.nVar < 2 ^ 31
      · rw [if_pos inside]
        exact ih fun _ => inside
      · rw [if_neg inside]
        refine iff_of_false (by simp) fun both => ?_
        have more := applyAll_vars both.1
        omega

def inputs (core : K) (calls : List ClauseCall) : EvalMaxSAT K :=
  (unweighted core (variablesOf 0 calls) (hardOf calls)).setNInputVars (variablesOf 0 calls)

theorem applyAll_loading (core : K) (calls : List ClauseCall) :
    applyAll (loadingUpdates calls) (fresh core) =
      applyAll (softUpdates (softOf calls)) (inputs core calls) := by
  have within : ∀ lits ∈ hardOf calls, ∀ l ∈ lits, l.natAbs ≤ 0 + variablesOf 0 calls := by
    intro lits mem l lit
    obtain ⟨c, inCalls, kind⟩ := List.mem_filterMap.mp mem
    split at kind
    · rw [← Option.some.inj kind] at lit
      rw [Nat.zero_add]
      exact variablesOf_mem inCalls lit
    · simp at kind
  rw [fresh_unweighted, loadingUpdates, applyAll_append, applyAll_append, applyAll_newVars,
    Option.bind_some, applyAll_hard within, Option.bind_some, Nat.zero_add, List.nil_append, applyAll]
  rfl

theorem variables_loaded {calls : List ClauseCall}
    (applied : applyAll (loadingUpdates calls) (fresh core) = some t) :
    variablesOf 0 calls ≤ t.solver.nVar := by
  rw [applyAll_loading] at applied
  exact applyAll_vars applied

/-- The loader leaves what the calls in that order leave, where the numbers of the variables are
`int`s. -/
theorem performCalls_loads (core : K) (calls : List ClauseCall) :
    performCalls [] (fresh core) calls .endOfFile = .done t ↔
      applyAll (loadingUpdates calls) (fresh core) = some t ∧ t.solver.nVar < 2 ^ 31 := by
  rw [applyAll_loading]
  constructor
  · intro done
    obtain ⟨_, bounded, added⟩ := performCalls_done (fun _ => by decide) done
    exact (addSofts_done bounded).mp added
  · rintro ⟨applied, inside⟩
    have count : MaxSatSolver.nVars (unweighted core (variablesOf 0 calls) (hardOf calls)) =
        variablesOf 0 calls := nVars_unweighted
    have small : variablesOf 0 calls < 2 ^ 31 := Nat.lt_of_le_of_lt (applyAll_vars applied) inside
    rw [fresh_unweighted, performCalls_unweighted [] small, List.nil_append, List.nil_append,
      performCalls, count]
    exact (addSofts_done fun _ => small).mpr ⟨applied, inside⟩

def longSofts (soft : List (Clause × Int)) : Nat := soft.countP fun c => 2 ≤ c.1.length

variable {n : Nat}

theorem counted_soft (counted : Counted s (n + 1) (n + 1) n) {clause : Clause}
    (within : ∀ l ∈ clause, l.natAbs ≤ n) (w : Int) : ∃ x k, s.addClause clause (some w) = some (x, k) ∧
      ∃ m, Counted k (m + 1) (m + 1) m ∧ n ≤ m ∧ m ≤ n + longSofts [(clause, w)] := by
  unfold EvalMaxSAT.addClause
  dsimp only
  by_cases zero : w = 0
  · rw [if_pos zero]
    exact ⟨0, s, rfl, n, counted, Nat.le_refl n, Nat.le_add_right _ _⟩
  · rw [if_neg zero, if_neg (by simp [counted.unsolved])]
    refine ⟨_, _, rfl, ?_⟩
    match clause with
    | [] => exact ⟨n, ⟨counted.weights, counted.entries, counted.known, counted.none_yet,
        counted.unsolved⟩, Nat.le_refl n, Nat.le_add_right _ _⟩
    | [lit] =>
      have known := within lit (by simp)
      have after := counted_addWeight counted lit w
      rw [show lit.natAbs + 1 - (n + 1) = 0 by omega] at after
      exact ⟨n, after, Nat.le_refl n, Nat.le_add_right _ _⟩
    | l :: l' :: rest =>
      obtain ⟨k, after, raised, _⟩ := counted_addSoftClause counted l l' rest w
      have next : k = n + 1 := raised.same.mpr fun a mem => (within a mem).trans (Nat.le_succ n)
      rw [next] at after
      exact ⟨n + 1, after, Nat.le_succ n, by simp [longSofts]⟩

theorem applyAll_soft {soft : List (Clause × Int)} (counted : Counted s (n + 1) (n + 1) n)
    (within : ∀ c ∈ soft, ∀ l ∈ c.1, l.natAbs ≤ n) :
    ∃ t, applyAll (softUpdates soft) s = some t ∧ t.solver.nVar ≤ n + longSofts soft := by
  induction soft generalizing s n with
  | nil => exact ⟨s, rfl, Nat.le_of_eq counted.known⟩
  | cons c soft ih =>
    obtain ⟨x, r, added, m, after, more, upto⟩ := counted_soft counted (within c (by simp)) c.2
    obtain ⟨t, rest, bound⟩ := ih after fun d mem l lit => (within d (by simp [mem]) l lit).trans more
    refine ⟨t, ?_, ?_⟩
    · rw [softUpdates, List.map_cons, applyAll, Update.apply, added, Option.bind_some]
      exact rest
    · have parts : longSofts ([c] ++ soft) = longSofts [c] + longSofts soft := List.countP_append
      have whole : longSofts (c :: soft) = longSofts ([c] ++ soft) := rfl
      have single : longSofts [(c.1, c.2)] = longSofts [c] := rfl
      omega

theorem counted_inputs (core : K) (calls : List ClauseCall) : Counted (inputs core calls)
    (variablesOf 0 calls + 1) (variablesOf 0 calls + 1) (variablesOf 0 calls) :=
  ⟨List.length_replicate, List.length_replicate, rfl, rfl, rfl⟩

theorem softOf_within {calls : List ClauseCall} {c : Clause × Int} (mem : c ∈ softOf calls) :
    ∀ l ∈ c.1, l.natAbs ≤ variablesOf 0 calls := by
  intro l lit
  obtain ⟨call, inCalls, soft⟩ := List.mem_filterMap.mp mem
  obtain ⟨w, _, rfl⟩ := Option.map_eq_some_iff.mp soft
  exact variablesOf_mem inCalls lit

theorem applyAll_calls (core : K) (calls : List ClauseCall) :
    ∃ t, applyAll (loadingUpdates calls) (fresh core) = some t ∧
      t.solver.nVar ≤ variablesOf 0 calls + longSofts (softOf calls) := by
  rw [applyAll_loading]
  exact applyAll_soft (counted_inputs core calls) fun c mem => softOf_within mem

end Loads

section Formats

/-- The two formats of a file; the old one tells the weight from which on clauses are hard. -/
inductive Format where
  | new
  | old (top : Nat)
  deriving DecidableEq, Repr

/-- The clauses in the order of the file, hard where no weight is given. -/
abbrev Formula := List (Clause × Option Nat)

def Format.entries : Format → Formula → List Entry
  | .new, formula => formula.map fun c => .clause c.2 c.1
  | .old top, formula => .top (some top) :: formula.map fun c => .clause (some (c.2.getD top)) c.1

def Format.Fits : Format → Formula → Prop
  | .new, _ => True
  | .old top, formula => top < 2 ^ 64 ∧ ∀ c ∈ formula, ∀ w, c.2 = some w → w < top

def callsOf (formula : Formula) : List ClauseCall := formula.map fun c => (c.1, c.2.map Nat.cast)

/-- The literals are `int`s other than 0, the weights positive `long long`s, and the variables of
the long soft clauses are `int`s as well. -/
structure Expressible (formula : Formula) : Prop where
  literals : ∀ c ∈ formula, ∀ l ∈ c.1, l ≠ 0 ∧ IsInt l
  weights : ∀ c ∈ formula, ∀ w, c.2 = some w → 1 ≤ w ∧ w < 2 ^ 63
  room : variablesOf 0 (callsOf formula) + longSofts (softOf (callsOf formula)) < 2 ^ 31

variable {format : Format} {formula : Formula} {refills : List (List Nat)}

theorem weightRead_some {w : Nat} (small : w < 2 ^ 64) : weightRead (some w) = w := u64_of_nat small

theorem readCalls_clauses {top : Nat} (mark : Option Nat → Option Nat)
    (hard : top ≤ weightRead (mark none)) (soft : ∀ c ∈ formula, ∀ w, c.2 = some w →
      weightRead (mark (some w)) = w ∧ w < top ∧ w < 2 ^ 63) :
    readCalls top (formula.map fun c => .clause (mark c.2) c.1) = callsOf formula := by
  induction formula with
  | nil => rfl
  | cons c formula ih =>
    obtain ⟨lits, weight⟩ := c
    have rest := ih (fun d mem => soft d (by simp [mem]))
    rw [List.map_cons, readCalls, rest]
    cases weight with
    | none =>
      rw [if_pos hard]
      rfl
    | some w =>
      obtain ⟨read, below, small⟩ := soft (lits, some w) (by simp) w rfl
      dsimp only
      rw [if_neg (by omega), read, i64_of_range (by omega) (by omega)]
      rfl

theorem readCalls_format (expressible : Expressible formula) (fits : format.Fits formula) :
    readCalls maxWeight (format.entries formula) = callsOf formula := by
  cases format with
  | new =>
    apply readCalls_clauses id
    · exact Nat.le_refl _
    · intro c mem w weight
      obtain ⟨_, small⟩ := expressible.weights c mem w weight
      have max : maxWeight = 2 ^ 64 - 1 := rfl
      exact ⟨weightRead_some (by omega), by omega, small⟩
  | old top =>
    obtain ⟨word, above⟩ := fits
    rw [Format.entries, readCalls, weightRead_some word]
    apply readCalls_clauses fun w => some (w.getD top)
    · exact Nat.le_of_eq (weightRead_some word).symm
    · intro c mem w weight
      obtain ⟨_, small⟩ := expressible.weights c mem w weight
      have below := above c mem w weight
      exact ⟨@weightRead_some w (by omega), below, small⟩

theorem entries_lits {mark : Option Nat} {lits : Clause}
    (mem : Entry.clause mark lits ∈ format.entries formula) : ∃ c ∈ formula, c.1 = lits := by
  have among : ∀ g : Option Nat → Option Nat,
      Entry.clause mark lits ∈ formula.map (fun c => Entry.clause (g c.2) c.1) →
        ∃ c ∈ formula, c.1 = lits := by
    intro g mem
    obtain ⟨c, inFormula, same⟩ := List.mem_map.mp mem
    exact ⟨c, inFormula, (Entry.clause.inj same).2⟩
  cases format with
  | new => exact among id mem
  | old top =>
    rcases List.mem_cons.mp mem with other | mem
    · simp at other
    · exact among (fun w => some (w.getD top)) mem

/-- However its bytes come, the loader performs the calls of a file. -/
theorem parse_performs {S : Type} [MaxSatSolver S] (s : S) (pieces : ∀ r ∈ refills, r ≠ [])
    (nonempty : refills.flatten ≠ []) : parse s (StreamBuffer.start refills) = performCalls [] s
      (fileCalls maxWeight refills.flatten).1 (fileCalls maxWeight refills.flatten).2 := by
  obtain ⟨c, text, shape⟩ := List.exists_cons_of_ne_nil nonempty
  have next : peek refills.flatten = some c := by rw [shape]; rfl
  rw [parse_refills pieces, parse, next, if_neg (by simp), parseLines_calls maxWeight [] s]
  rfl

theorem parse_done (pieces : ∀ r ∈ refills, r ≠ [])
    (loaded : parse (fresh core) (StreamBuffer.start refills) = .done t) :
    (fileCalls maxWeight refills.flatten).2 = .endOfFile ∧
      applyAll (loadingUpdates (fileCalls maxWeight refills.flatten).1) (fresh core) = some t ∧
      t.solver.nVar < 2 ^ 31 := by
  have nonempty : refills.flatten ≠ [] := by
    intro empty
    have none_yet : peek ([] : List Nat) = none := rfl
    rw [parse_refills pieces, parse, empty, if_pos none_yet] at loaded
    simp at loaded
  rw [parse_performs (fresh core) pieces nonempty] at loaded
  obtain ⟨ending, _⟩ := performCalls_done (fun _ => by decide) loaded
  rw [ending] at loaded
  exact ⟨ending, (performCalls_loads core _).mp loaded⟩

/-- Loading a written file leaves the state that adding its clauses leaves, however its bytes come. -/
theorem reading_undoes_writing (core : K) (expressible : Expressible formula)
    (fits : format.Fits formula) (written : FileText (format.entries formula) refills.flatten)
    (nonempty : refills.flatten ≠ []) (pieces : ∀ r ∈ refills, r ≠ []) :
    ∃ t, applyAll (loadingUpdates (callsOf formula)) (fresh core) = some t ∧
      parse (fresh core) (StreamBuffer.start refills) = .done t := by
  have read := document_written written
  have range : (document refills.flatten).InRange := by
    rw [read]
    refine ⟨fun mark lits mem l lit => ?_, fun l lit => absurd lit (List.not_mem_nil)⟩
    obtain ⟨c, inFormula, same⟩ := entries_lits mem
    rw [← same] at lit
    exact (expressible.literals c inFormula l lit).2
  obtain ⟨t, applied, count⟩ := applyAll_calls core (callsOf formula)
  have inside : t.solver.nVar < 2 ^ 31 := Nat.lt_of_le_of_lt count expressible.room
  refine ⟨t, applied, ?_⟩
  rw [parse_performs (fresh core) pieces nonempty, fileCalls_document maxWeight _ range.word, read,
    readCalls_format expressible fits]
  exact (performCalls_loads core _).mpr ⟨applied, inside⟩

section Texts

theorem gap_space : Gap [32] := by simp [Gap, Blank, isSpace]

theorem digit_text {c n : Nat} (digit : isDigit c = true) (value : decimal 0 c = n) : Digits n [c] :=
  ⟨by simp, by simpa using digit, value⟩

theorem clause_end : ClauseText [] ([32] ++ [48]) := .zero gap_space (.plain (digit_text rfl rfl))

end Texts

theorem reading_undoes_writing_small : ∃ t : EvalMaxSAT Unit,
    applyAll (loadingUpdates (callsOf [([1], none), ([-1], some 3)])) (fresh ()) = some t ∧
      parse (fresh ()) (StreamBuffer.start [[104, 32, 49], [32, 48, 10, 51], [32, 45, 49, 32, 48]]) =
        .done t := by
  have hard : ClauseText [1] ([32] ++ ([49] ++ ([32] ++ [48]))) :=
    .lit gap_space (by decide) (.plain (digit_text rfl rfl)) clause_end
  have soft : ClauseText [-1] ([32] ++ ([45, 49] ++ ([32] ++ [48]))) :=
    .lit gap_space (by decide) (.minus (digit_text rfl rfl)) clause_end
  have line : EntryText (.clause (some 3) [-1]) ([51] ++ ([32] ++ ([45, 49] ++ ([32] ++ [48])))) :=
    .soft (.plain (digit_text rfl rfl)) soft
  have last : FileText [.clause (some 3) [-1]]
      ([10] ++ (([51] ++ ([32] ++ ([45, 49] ++ ([32] ++ [48])))) ++ [])) :=
    .entry (by simp [Blank, isSpace]) line (.inl rfl) (.blank (by simp [Blank]))
  have written : FileText (Format.new.entries [([1], none), ([-1], some 3)])
      [[104, 32, 49], [32, 48, 10, 51], [32, 45, 49, 32, 48]].flatten :=
    @FileText.entry [] _ _ _ _ (by simp [Blank]) (.hard hard rfl) (.inr rfl) last
  exact @reading_undoes_writing Unit .new _ _ () ⟨by decide, by simp, by decide⟩ trivial written
    (by simp) (by simp)

/-- The least `int` is not loaded: its variable would have the number behind the largest `int`. -/
theorem least_int_refused : ¬ ∀ (format : Format) (formula : Formula) (refills : List (List Nat)),
    (∀ c ∈ formula, ∀ l ∈ c.1, l ≠ 0 ∧ -2 ^ 31 ≤ l ∧ l < 2 ^ 31) →
    (∀ c ∈ formula, ∀ w, c.2 = some w → 1 ≤ w ∧ w < 2 ^ 63) → format.Fits formula →
    FileText (format.entries formula) refills.flatten → refills.flatten ≠ [] →
    (∀ r ∈ refills, r ≠ []) → ∃ t : EvalMaxSAT Unit,
      applyAll (loadingUpdates (callsOf formula)) (fresh ()) = some t ∧
        parse (fresh ()) (StreamBuffer.start refills) = .done t := by
  intro claim
  have number : Digits 2147483648 [50, 49, 52, 55, 52, 56, 51, 54, 52, 56] := by
    refine ⟨by simp, by decide, by decide⟩
  have least : ClauseText [-2 ^ 31]
      ([32] ++ ([45, 50, 49, 52, 55, 52, 56, 51, 54, 52, 56] ++ ([32] ++ [48]))) :=
    .lit gap_space (by decide) (.minus number) clause_end
  have written : FileText (Format.new.entries [([-2 ^ 31], none)])
      [[104, 32, 45, 50, 49, 52, 55, 52, 56, 51, 54, 52, 56, 32, 48]].flatten :=
    @FileText.entry [] _ _ _ _ (by simp [Blank]) (.hard least rfl) (.inl rfl) (.blank (by simp [Blank]))
  obtain ⟨t, _, done⟩ := claim .new _ _ (by decide) (by simp) trivial written (by simp) (by simp)
  obtain ⟨_, applied, inside⟩ := parse_done (by simp) done
  have read : (fileCalls maxWeight [[104, 32, 45, 50, 49, 52, 55, 52, 56, 51, 54, 52, 56, 32, 48]].flatten).1 =
      [([-2 ^ 31], none)] := by decide +kernel
  have largest := variables_loaded applied
  rw [read] at largest
  have many : variablesOf 0 [([-2 ^ 31], none)] = 2 ^ 31 := by decide
  omega

end Formats
end EvalMaxSat
