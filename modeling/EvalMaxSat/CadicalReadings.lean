import EvalMaxSat.CadicalRuns
import EvalMaxSat.Steps

/-!
What the replies of the wrapper are worth. If single searches are right about the clauses and the
assumptions that they are given, then every reply, after any calls, is right about the clauses
added so far and the question put last.
-/
namespace EvalMaxSat
open Literals PartialMachines

namespace Cadical

variable {K : Type}

/-- The contract of the library for single calls. -/
structure Core.Sound (core : Core K) : Prop where
  sat : ∀ k f as c d model, (core.search k f as c d).1 = .sat model →
    Models (assignment model) f ∧ AllTrue (assignment model) as
  unsat : ∀ k f as c d failed, (core.search k f as c d).1 = .unsat failed →
    Inconsistent f (as.filter (· ∈ failed))
  implied : ∀ k f as prop, (core.implicants k f as).1 = some prop →
    ∀ l ∈ prop, Inconsistent f (-l :: as)
  newly : ∀ k f as prop, (core.implicants k f as).1 = some prop →
    prop.Nodup ∧ ∀ l ∈ prop, l ≠ 0 ∧ l ∉ as ∧ -l ∉ as ∧ [l] ∉ f ∧ [-l] ∉ f
  failing : ∀ k f as, (core.implicants k f as).1 = none → Inconsistent f as

def Request.question : Request → Option (List Int)
  | .solve assumption => some assumption
  | .solveForced assumption forced =>
    some (forced ++ assumption.filter fun lit => -lit ∉ forced)
  | .solveSolution solution => some (solutionLits solution)
  | .solveLimited assumption _ except => some (assumption.filter (· ≠ except))
  | .solveWithTimeout assumption except => some (assumption.filter (· ≠ except))
  | _ => none

/-- The clauses added so far, and the question put last unless its answer is void. -/
structure Asked where
  clauses : Cnf
  question : Option (List Int)

def Asked.next (h : Asked) : Request → Asked
  | .newVar => h
  | .getSolution => h
  | .getConflict _ => h
  | .addClause clause => ⟨h.clauses ++ [clause], none⟩
  | request => ⟨h.clauses, request.question⟩

def asked (requests : List Request) : Asked := requests.foldl Asked.next ⟨[], none⟩

def HonestResult (f : Cnf) (as : List Int) (b : Option Bool) : Prop :=
  (b = some true → ∃ m, Models m f ∧ AllTrue m as) ∧ (b = some false → Inconsistent f as)

/-- The reply is right: a new variable is in no clause, a verdict is true of its question, and so
are the solution and the conflict of the question put last. -/
def Honest (h : Asked) (o : Reply) : Request → Prop
  | .newVar => ∃ v, o = .variable v ∧ ∀ l ∈ h.clauses.flatten, l.natAbs < v.natAbs
  | .addClause _ => o = .silent
  | .propagate assum => o = .implied none ∧ Inconsistent h.clauses assum ∨
      ∃ prop, o = .implied (some prop) ∧ ∀ l ∈ prop, Inconsistent h.clauses (-l :: assum)
  | .getSolution => ∃ as vals, h.question = some as ∧ o = .solution vals ∧
      Models (assignment vals) h.clauses ∧ AllTrue (assignment vals) as
  | .getConflict assumptions => ∃ lits, o = .conflict lits ∧ lits.Sublist assumptions ∧
      (assumptions ≠ [] → ∃ as, h.question = some as ∧
        (as ⊆ assumptions → Inconsistent h.clauses lits))
  | request => ∃ b, o = .result b ∧ ∀ as, request.question = some as →
      HonestResult h.clauses as b

/-- The back end knows the clauses, and its last answer is true of the last question. -/
structure Truthful (h : Asked) (b : Tracked K) : Prop where
  clauses : b.backEnd.clauses = h.clauses
  within : ∀ l ∈ h.clauses.flatten, l.natAbs ≤ b.backEnd.nVar
  satisfied : b.readable = some true → ∃ as model, h.question = some as ∧
    b.backEnd.last = .sat model ∧ Models (assignment model) h.clauses ∧
    AllTrue (assignment model) as
  unsatisfied : b.readable = some false → ∃ as failed, h.question = some as ∧
    b.backEnd.last = .unsat failed ∧ Inconsistent h.clauses (as.filter (· ∈ failed))

section Answers
variable {core : Core K}

theorem retry_answer (core : Core K) (patience : Nat) (k : K) (f : Cnf) (as : List Int) :
    ∃ k', (retry core patience k f as).1 = (core.search k' f as none none).1 := by
  induction patience generalizing k with
  | zero => exact ⟨k, rfl⟩
  | succ patience ih =>
    unfold retry
    by_cases unknown : (core.search k f as none none).1 = .unknown
    · obtain ⟨k', same⟩ := ih (core.search k f as none none).2
      exact ⟨k', by simp only [if_pos unknown, same]⟩
    · exact ⟨k, by simp only [if_neg unknown]⟩

theorem withCadical_answer (base : Env K) (core : Core K) (patience : Nat) (seconds : K → ℚ)
    (k : K) (f : Cnf) (as : List Int) (lim : Limit) :
    ∃ k' c d, ((withCadical base core patience seconds).answer k f as lim).1 =
      (core.search k' f as c d).1 := by
  cases lim with
  | unlimited =>
    obtain ⟨k', same⟩ := retry_answer core patience k f as
    exact ⟨k', none, none, same⟩
  | conflicts budget => exact ⟨k, some budget, none, rfl⟩
  | time => exact ⟨k, none, _, rfl⟩

end Answers

section Histories
variable {base : Env K} {core : Core K} {patience : Nat} {seconds : K → ℚ} {h : Asked}
  {b : Tracked K}

theorem addClause_within (c : Clause) (S : Solver_cadical K) : S.nVar ≤ (S.addClause c).nVar ∧
    ∀ l ∈ c, l.natAbs ≤ (S.addClause c).nVar := by
  have larger : (fun (n : Nat) (l : Int) => if n < l.natAbs then l.natAbs else n) =
      fun n l => max n l.natAbs := by
    funext n l
    split <;> omega
  unfold Solver_cadical.addClause
  rw [larger]
  exact foldl_max_bound c S.nVar

theorem query_truthful (contract : core.Sound) (truthful : Truthful h b) (as : List Int)
    (lim : Limit) :
    Truthful ⟨h.clauses, some as⟩ (b.query (withCadical base core patience seconds) as lim).2 ∧
      ∃ v, (b.query (withCadical base core patience seconds) as lim).1 = .result v ∧
        HonestResult h.clauses as v := by
  obtain ⟨k', c, d, same⟩ :=
    withCadical_answer base core patience seconds b.backEnd.core b.backEnd.clauses as lim
  unfold Tracked.query Solver_cadical.query
  rcases answer : core.search k' b.backEnd.clauses as c d with ⟨model | failed | _, k⟩
  · have found := contract.sat _ _ _ _ _ model (congrArg Prod.fst answer)
    rw [truthful.clauses] at found
    rw [answer] at same
    simp only [same, told]
    refine ⟨⟨truthful.clauses, truthful.within, fun _ => ⟨as, model, rfl, rfl, found⟩, by simp⟩,
      some true, rfl, fun _ => ⟨_, found⟩, by simp⟩
  · have failing := contract.unsat _ _ _ _ _ failed (congrArg Prod.fst answer)
    rw [truthful.clauses] at failing
    rw [answer] at same
    simp only [same, told]
    refine ⟨⟨truthful.clauses, truthful.within, by simp, fun _ => ⟨as, failed, rfl, rfl, failing⟩⟩,
      some false, rfl, by simp, fun _ => ?_⟩
    exact inconsistent_sub (List.filter_subset_self _) failing
  · rw [answer] at same
    simp only [same, told]
    exact ⟨⟨truthful.clauses, truthful.within, by simp, by simp⟩, none, rfl, by simp, by simp⟩

theorem question_query (env : Env K) (h : Asked) (b : Tracked K) {r : Request} {as : List Int}
    (asks : r.question = some as) : ∃ lim, r.onBackEnd env b = some (b.query env as lim) ∧
      h.next r = ⟨h.clauses, some as⟩ ∧
      ∀ v, HonestResult h.clauses as v → Honest h (.result v) r := by
  have same : ∀ v, HonestResult h.clauses as v → ∃ u, Reply.result v = .result u ∧
      ∀ ls, r.question = some ls → HonestResult h.clauses ls u := by
    intro v honest
    refine ⟨v, rfl, ?_⟩
    intro ls asked
    rw [asks] at asked
    cases asked
    exact honest
  cases r with
  | solve assumption => cases asks; exact ⟨_, rfl, rfl, same⟩
  | solveForced assumption forced => cases asks; exact ⟨_, rfl, rfl, same⟩
  | solveSolution solution => cases asks; exact ⟨_, rfl, rfl, same⟩
  | solveLimited assumption confBudget except => cases asks; exact ⟨_, rfl, rfl, same⟩
  | solveWithTimeout assumption except => cases asks; exact ⟨_, rfl, rfl, same⟩
  | newVar => cases asks
  | addClause clause => cases asks
  | propagate assum => cases asks
  | getSolution => cases asks
  | getConflict assumptions => cases asks

theorem newVar_truthful (truthful : Truthful h b) :
    Truthful h { b with backEnd := b.backEnd.newVar.2 } where
  clauses := truthful.clauses
  within := fun l mem => (truthful.within l mem).trans (Nat.le_succ _)
  satisfied := truthful.satisfied
  unsatisfied := truthful.unsatisfied

theorem addClause_truthful (truthful : Truthful h b) (clause : Clause) :
    Truthful (h.next (.addClause clause)) ⟨b.backEnd.addClause clause, none⟩ where
  clauses := by
    unfold Asked.next Solver_cadical.addClause
    rw [truthful.clauses]
  within := by
    obtain ⟨more, all⟩ := addClause_within clause b.backEnd
    intro l mem
    simp only [Asked.next, List.flatten_append, List.mem_append, List.flatten_singleton] at mem
    rcases mem with old | new
    · exact (truthful.within l old).trans more
    · exact all l new
  satisfied := by simp
  unsatisfied := by simp

theorem propagate_truthful (contract : core.Sound) (truthful : Truthful h b) (assum : List Int)
    (prop : Option (List Int))
    (result : (core.implicants b.backEnd.core b.backEnd.clauses assum).1 = prop) :
    Honest h (.implied prop) (.propagate assum) := by
  rw [truthful.clauses] at result
  cases prop with
  | none => exact .inl ⟨rfl, contract.failing _ _ _ result⟩
  | some prop => exact .inr ⟨prop, rfl, contract.implied _ _ _ _ result⟩

theorem getSolution_truthful (truthful : Truthful h b) {o : Reply} {b' : Tracked K}
    (step : (if b.readable = some true then some (Reply.solution b.backEnd.getSolution, b)
      else none) = some (o, b')) : Truthful h b' ∧ Honest h o .getSolution := by
  by_cases readable : b.readable = some true
  · rw [if_pos readable] at step
    cases step
    obtain ⟨as, model, asked, last, models, true_as⟩ := truthful.satisfied readable
    have value := getSolution_assignment last
    refine ⟨truthful, as, _, asked, rfl, ?_⟩
    rw [value]
    exact ⟨models, true_as⟩
  · rw [if_neg readable] at step
    cases step

theorem getConflict_truthful (truthful : Truthful h b) {assumptions : List Int} {o : Reply}
    {b' : Tracked K}
    (step : (if assumptions = [] ∨ b.readable = some false then
      some (Reply.conflict (b.backEnd.getConflict assumptions), b) else none) = some (o, b')) :
    Truthful h b' ∧ Honest h o (.getConflict assumptions) := by
  by_cases readable : assumptions = [] ∨ b.readable = some false
  · rw [if_pos readable] at step
    cases step
    refine ⟨truthful, _, rfl, ?_, ?_⟩
    · unfold Solver_cadical.getConflict
      split
      · exact List.filter_sublist
      · exact List.nil_sublist _
    · intro some
      obtain ⟨as, failed, asked, last, failing⟩ :=
        truthful.unsatisfied (readable.resolve_left some)
      refine ⟨as, asked, ?_⟩
      intro covered
      unfold Solver_cadical.getConflict
      rw [last]
      exact inconsistent_sub (List.filter_subset _ covered) failing
  · rw [if_neg readable] at step
    cases step

theorem request_truthful (contract : core.Sound) (truthful : Truthful h b) {r : Request} {o : Reply}
    {b' : Tracked K}
    (step : r.onBackEnd (withCadical base core patience seconds) b = some (o, b')) :
    Truthful (h.next r) b' ∧ Honest h o r := by
  rcases asks : r.question with _ | as
  · cases r with
    | newVar =>
      cases step
      refine ⟨newVar_truthful truthful, _, rfl, ?_⟩
      intro l mem
      exact Nat.lt_succ_of_le (truthful.within l mem)
    | addClause clause =>
      cases step
      exact ⟨addClause_truthful truthful clause, rfl⟩
    | propagate assum =>
      cases step
      exact ⟨⟨truthful.clauses, truthful.within, by simp, by simp⟩,
        propagate_truthful contract truthful assum _ rfl⟩
    | getSolution => exact getSolution_truthful truthful step
    | getConflict assumptions => exact getConflict_truthful truthful step
    | solve assumption => cases asks
    | solveForced assumption forced => cases asks
    | solveSolution solution => cases asks
    | solveLimited assumption confBudget except => cases asks
    | solveWithTimeout assumption except => cases asks
  · obtain ⟨lim, query, next, honest⟩ :=
      question_query (withCadical base core patience seconds) h b asks
    obtain ⟨after, v, result, true_v⟩ :=
      @query_truthful K base core patience seconds h b contract truthful as lim
    rw [query] at step
    have both := Option.some.inj step
    rw [both] at after result
    rw [next]
    cases result
    exact ⟨after, honest v true_v⟩

end Histories

def bareEnv : Env K where
  answer := fun k _ _ _ => (.unknown, k)
  propagate := fun k _ _ => (none, k)
  clock := fun k => (false, k)
  shuffle := fun k xs => (xs, k)
  maxclique := fun k _ _ => ([], k)
  quotient := fun _ _ => 0
  belowHalf := fun _ _ => false
  beginDecrement := fun _ => false

/-- In any history of the wrapper every reply is right: no assumption, no limit, no solution and no
conflict of an earlier call is taken for one of a later call. -/
theorem wrapper_honest {core : Core K} (contract : core.Sound) (patience : Nat) (seconds : K → ℚ)
    (k : K) (requests : List Request) (request : Request)
    (valid : ∀ r ∈ requests ++ [request], ∀ l ∈ r.lits, validLit l = true) {replies : List Reply}
    (run : runs (Request.onInterface core patience seconds) (requests ++ [request]) (.new k) =
      some replies) :
    ∃ o, replies.getLast? = some o ∧ Honest (asked requests) o request := by
  rw [requests_agree bareEnv core patience seconds valid (new_mirrors k)] at run
  have start : Truthful (asked []) (⟨⟨k, 0, [], .unknown⟩, none⟩ : Tracked K) :=
    ⟨rfl, by simp [asked], by simp, by simp⟩
  have each : ∀ past r (b : Tracked K) o b', Truthful (asked past) b →
      Request.onBackEnd (withCadical bareEnv core patience seconds) r b = some (o, b') →
      Truthful (asked (past ++ [r])) b' := by
    intro past r b o b' truthful step
    have next := (request_truthful contract truthful step).1
    unfold asked
    rw [List.foldl_append]
    exact next
  obtain ⟨b, o, b', truthful, step, last⟩ := runs_last each start run
  exact ⟨o, last, (request_truthful contract truthful step).2⟩

theorem referenceCore_sound : referenceCore.Sound where
  sat := by
    intro k f as c d model answer
    unfold referenceCore at answer
    rcases found : search f as with _ | some
    · simp [found] at answer
    · simp only [found, Answer.sat.injEq] at answer
      subst answer
      exact search_some found
  unsat := by
    intro k f as c d failed answer
    unfold referenceCore at answer
    rcases found : search f as with _ | some
    · simp only [found, Answer.unsat.injEq] at answer
      subst answer
      have all : as.filter (· ∈ as) = as := by simp
      rw [all]
      exact search_none found
    · simp [found] at answer
  implied := reference_sound.implied
  newly := reference_sound.newly
  failing := reference_sound.failing

theorem sampleReplies : runs (Request.onInterface referenceCore 1 fun _ => 60)
    ([.addClause [1, 2], .addClause [-1], .addClause [-2, 3], .solve []] ++ [.getSolution])
    (.new ()) = some [.silent, .silent, .silent, .result (some true),
      .solution [false, false, true, true]] := by
  decide +kernel

theorem wrapper_honest_small :
    Honest ⟨[[1, 2], [-1], [-2, 3]], some []⟩ (.solution [false, false, true, true])
      .getSolution := by
  obtain ⟨o, last, honest⟩ := wrapper_honest referenceCore_sound 1 (fun _ => 60) ()
    [.addClause [1, 2], .addClause [-1], .addClause [-2, 3], .solve []] .getSolution
    (by decide) sampleReplies
  cases last
  exact honest

end Cadical
end EvalMaxSat
