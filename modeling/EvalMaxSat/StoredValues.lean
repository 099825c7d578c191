import EvalMaxSat.Replays
import EvalMaxSat.StoredSolutions
import Mathlib.Data.List.DropRight

/-!
Reading the values of the stored solution, which keeps its length while variables are made.
-/
namespace EvalMaxSat
open Literals EvalMaxSAT StepProgram

variable {K : Type} {env : Env K} {core : K} {s t : EvalMaxSAT K} {lit : Int} {d : Story}
  {path : List (EvalMaxSAT K)} {tr : Trace K}

theorem getValue_beyond (beyond : s.solution.length < lit.natAbs) : s.getValue lit = some false :=
  if_pos beyond

theorem getValue_positive (positive : 0 < lit) (upto : lit.natAbs ≤ s.solution.length) :
    s.getValue lit = s.solution[lit.natAbs]? := by
  unfold EvalMaxSAT.getValue
  rw [if_neg (by omega), if_pos positive]

theorem getValue_negative (positive : 0 < lit) (upto : lit.natAbs ≤ s.solution.length) :
    s.getValue (-lit) = s.solution[lit.natAbs]?.map not := by
  unfold EvalMaxSAT.getValue
  rw [if_neg (by omega), if_neg (by omega), if_pos (by omega), neg_neg]

/-- The one index past the end that the test lets through. -/
theorem getValue_inside (nonzero : lit ≠ 0) :
    (s.getValue lit).isSome ↔ lit.natAbs ≠ s.solution.length := by
  by_cases beyond : s.solution.length < lit.natAbs
  · rw [getValue_beyond beyond]
    exact iff_of_true rfl (by omega)
  · have entry : (s.solution[lit.natAbs]?).isSome ↔ lit.natAbs ≠ s.solution.length := by
      rw [isSome_getElem?]
      omega
    by_cases positive : 0 < lit
    · rw [getValue_positive positive (by omega)]
      exact entry
    · have read := @getValue_negative _ s (-lit) (by omega) (by omega)
      rw [neg_neg, Int.natAbs_neg] at read
      rw [read, Option.isSome_map]
      exact entry

theorem getValue_opposite (nonzero : lit ≠ 0) (covered : lit.natAbs < s.solution.length) :
    ∃ b, s.getValue lit = some b ∧ s.getValue (-lit) = some !b := by
  have entry : s.solution[lit.natAbs]? = some s.solution[lit.natAbs] := List.getElem?_eq_getElem covered
  by_cases positive : 0 < lit
  · refine ⟨s.solution[lit.natAbs], ?_, ?_⟩
    · rw [getValue_positive positive (by omega), entry]
    · rw [getValue_negative positive (by omega), entry]
      rfl
  · have yes := @getValue_positive _ s (-lit) (by omega) (by omega)
    have no := @getValue_negative _ s (-lit) (by omega) (by omega)
    rw [Int.natAbs_neg, entry] at yes no
    rw [neg_neg] at no
    refine ⟨!s.solution[lit.natAbs], no, ?_⟩
    rw [yes, Bool.not_not]

section Boundary

/-- The value of every variable that there is can be read. -/
def Readable (s : EvalMaxSAT K) : Prop :=
  ∀ lit : Int, lit ≠ 0 → lit.natAbs ≤ s.solver.nVar → (s.getValue lit).isSome

theorem readable_iff : Readable s ↔ Covering s.solver.nVar s.solution := by
  constructor
  · intro readable
    by_contra uncovered
    obtain ⟨nonempty, short⟩ := not_or.mp uncovered
    have size := List.length_pos_iff.mpr nonempty
    have read := readable (s.solution.length : Int) (by omega) (by omega)
    rw [getValue_inside (by omega)] at read
    exact read (Int.natAbs_natCast _)
  · intro covering lit nonzero known
    rw [getValue_inside nonzero]
    rcases covering with empty | long
    · rw [empty, List.length_nil]
      omega
    · omega

/-- From `s` to `t`, the variable whose number is the size of the solution is not made. -/
def Skips (s t : EvalMaxSAT K) : Prop :=
  ¬ (s.solver.nVar < s.solution.length ∧ s.solution.length ≤ t.solver.nVar)

instance (s t : EvalMaxSAT K) : Decidable (Skips s t) := inferInstanceAs (Decidable (¬ _))

/-- The steps after the last one that stores a solution. -/
def afterStored (tr : Trace K) : Trace K := tr.rtakeWhile fun e => e.label ≠ .bound

theorem covering_retains (retains : Retains s t) :
    Covering t.solver.nVar t.solution ↔ Covering s.solver.nVar s.solution ∧ Skips s t := by
  obtain ⟨solution, vars⟩ := retains
  unfold Covering Skips
  rw [solution]
  constructor
  · rintro (empty | long)
    · refine ⟨Or.inl empty, fun crossed => ?_⟩
      rw [empty, List.length_nil] at crossed
      omega
    · exact ⟨Or.inr (by omega), by omega⟩
  · rintro ⟨empty | long, skips⟩
    · exact Or.inl empty
    · exact Or.inr (by omega)

/-- A path is as good as what follows the last solution stored on it. -/
theorem covering_path (path : Chain s tr t) (steps : ∀ e ∈ tr, StoresOrRetains e)
    (start : Covering s.solver.nVar s.solution) :
    Covering t.solver.nVar t.solution ↔ ∀ e ∈ afterStored tr, Skips e.before e.after := by
  induction tr using List.reverseRecOn generalizing t with
  | nil =>
    cases path
    exact iff_of_true start (by simp [afterStored])
  | append_singleton tr e ih =>
    obtain ⟨earlier, rfl⟩ := chain_concat path
    have before := ih earlier fun e mem => steps e (List.mem_append_left _ mem)
    have last := steps e (by simp)
    by_cases bound : e.label = .bound
    · have nothing : afterStored (tr ++ [e]) = [] := List.rtakeWhile_concat_neg _ _ _ (by simpa using bound)
      rw [nothing]
      exact iff_of_true (last.stores bound).2 (by simp)
    · have more : afterStored (tr ++ [e]) = afterStored tr ++ [e] :=
        List.rtakeWhile_concat_pos _ _ _ (by simpa using bound)
      rw [covering_retains (last.retains bound), before, more, List.forall_mem_append,
        List.forall_mem_singleton]

theorem readable_apply {u : Update} {x : Int} (applied : u.apply s = some (x, t)) :
    Readable t ↔ Readable s ∧ Skips s t := by
  rw [readable_iff, readable_iff]
  exact covering_retains (retains_apply applied)

theorem readable_ends {o : Outcome Bool} (readable : Readable s) (ends : (solve env).Ends s tr o t) :
    Readable t ↔ ∀ e ∈ afterStored tr, Skips e.before e.after := by
  rw [readable_iff]
  exact covering_path (Prog.ends_chain ends) ((stepwise_solve s).steps tr o t ends)
    (readable_iff.mp readable)

end Boundary

/-- A call does not make the variable whose number is the size of the solution, and a solve does not
make it after the last solution it stores. -/
def readableCall (env : Env K) (_ : Story) (s : EvalMaxSAT K) : Call → Prop
  | .update u => ∀ y ∈ u.apply s, Skips s y.2
  | .solve => ∀ tr o t, (solve env).Ends s tr o t → ∀ e ∈ afterStored tr, Skips e.before e.after

theorem history_readable (h : History env core (readableCall env) d path s) : Readable s := by
  induction h with
  | fresh => exact readable_iff.mpr (Or.inl rfl)
  | update _ allowed applied ih => exact (readable_apply applied).mpr ⟨ih, allowed _ applied⟩
  | solve _ allowed ends ih => exact (readable_ends ih ends).mpr (allowed _ _ _ ends)

/-- In a run whose calls all meet the condition, every variable can be read and a covered one has
opposite values on its two literals. A further call keeps that up if and only if it meets the
condition. -/
theorem values_in_range (h : History env core (readableCall env) d path s) :
    (∀ lit : Int, lit ≠ 0 → lit.natAbs ≤ s.solver.nVar → (s.getValue lit).isSome) ∧
    (∀ lit : Int, lit ≠ 0 → lit.natAbs < s.solution.length →
      ∃ b, s.getValue lit = some b ∧ s.getValue (-lit) = some !b) ∧
    (∀ u x t, Update.apply u s = some (x, t) → (Readable t ↔ readableCall env d s (.update u))) ∧
    ∀ tr o t, (solve env).Ends s tr o t → (Readable t ↔ readableCall env d s .solve) := by
  have readable := history_readable h
  refine ⟨readable, fun _ => getValue_opposite, fun u x t applied => ?_, fun tr o t ends => ?_⟩
  · rw [readable_apply applied]
    constructor
    · intro both y made
      rw [Option.mem_unique made applied]
      exact both.2
    · exact fun allowed => ⟨readable, allowed _ applied⟩
  · rw [readable_ends readable ends]
    constructor
    · intro skips tr' o' t' ends'
      obtain ⟨rfl, _⟩ := Prog.ends_unique ends ends'
      exact skips
    · exact fun allowed => allowed _ _ _ ends

/-- `getSolution` has an entry for each variable and one for 0. -/
def OneEach (s : EvalMaxSAT K) : Prop :=
  s.solver.getSolution = [] ∨ s.solver.getSolution.length = s.solver.nVar + 1

instance (s : EvalMaxSAT K) : Decidable (OneEach s) := inferInstanceAs (Decidable (_ ∨ _))

instance decidableEnded {α : Type} : (o : Outcome α) → Decidable o.Ended
  | .fuel => inferInstanceAs (Decidable False)
  | .done _ | .exit => inferInstanceAs (Decidable True)

def boundedCall (env : Env K) (fuel : Nat) (_ : Story) (s : EvalMaxSAT K) : Call → Prop
  | .update u => ∀ y ∈ u.apply s, Skips s y.2
  | .solve => ((solve env).run fuel s).2.1.Ended ∧
      ∀ e ∈ afterStored ((solve env).run fuel s).1, Skips e.before e.after

instance decidableBoundedCall (env : Env K) (fuel : Nat) (d : Story) (s : EvalMaxSAT K) :
    (c : Call) → Decidable (boundedCall env fuel d s c)
  | .update u => inferInstanceAs (Decidable (∀ y ∈ u.apply s, Skips s y.2))
  | .solve => inferInstanceAs (Decidable (((solve env).run fuel s).2.1.Ended ∧
      ∀ e ∈ afterStored ((solve env).run fuel s).1, Skips e.before e.after))

theorem readable_of_bounded {fuel : Nat} {c : Call} (allowed : boundedCall env fuel d s c) :
    readableCall env d s c := by
  cases c with
  | update u => exact allowed
  | solve =>
    intro tr o t ends
    have run := run_of_ends ends allowed.1
    have skips := allowed.2
    rwa [run] at skips

/-- Two soft clauses that exclude each other: the solve makes a third variable before it stores the
solution. -/
def exclusiveScript : List Call :=
  [.update .newVar, .update .newVar, .update (.addClause [-1, -2] none),
    .update (.addClause [1] (some 1)), .update (.addClause [2] (some 1)), .solve]

theorem values_in_range_small : ∃ (d : Story) (path : List (EvalMaxSAT Unit)) (s : EvalMaxSAT Unit),
    History referenceBackEnd () (readableCall referenceBackEnd) d path s ∧ d.vars = [1, 2] ∧
      s.solver.nVar = 3 ∧ s.solution = [false, true, false, true] ∧ (s.getValue (-3)).isSome ∧
      ∃ b, s.getValue 3 = some b ∧ s.getValue (-3) = some !b := by
  obtain ⟨d, path, s, history, facts⟩ := history_of_replay referenceBackEnd ()
    (boundedCall referenceBackEnd 40) 40 exclusiveScript
    (fun r => decide (r.1.vars = [1, 2] ∧ r.2.2.solver.nVar = 3 ∧
      r.2.2.solution = [false, true, false, true])) (by decide +kernel)
  dsimp only at facts
  obtain ⟨made, vars, solution⟩ := of_decide_eq_true facts
  have readable := history_mono (fun d s c => readable_of_bounded) history
  obtain ⟨reads, opposite, _⟩ := values_in_range readable
  exact ⟨d, path, s, readable, made, vars, solution, reads (-3) (by decide) (by rw [vars]; decide),
    opposite 3 (by decide) (by rw [solution]; decide)⟩

def laterScript : List Call :=
  [.update .newVar, .update (.addClause [1] none), .solve, .update .newVar]

theorem value_past_the_end : ¬ ∀ (env : Env Unit) (d : Story) (path : List (EvalMaxSAT Unit))
    (s : EvalMaxSAT Unit) (lit : Int), env.Sound → History env () anyCall d path s →
    (∀ t ∈ path, OneEach t) → lit ≠ 0 → d.Declared lit.natAbs → (s.getValue lit).isSome := by
  intro claim
  obtain ⟨d, path, s, history, facts⟩ := history_of_replay referenceBackEnd () anyCall 40 laterScript
    (fun r => decide ((∀ t ∈ r.2.1, OneEach t) ∧ r.1.Declared 2 ∧ r.2.2.getValue 2 = none))
    (by decide +kernel)
  dsimp only at facts
  obtain ⟨each, declared, none⟩ := of_decide_eq_true facts
  have inside := claim _ d path s 2 reference_sound history each (by decide) declared
  rw [none] at inside
  exact absurd inside (by decide)

end EvalMaxSat
