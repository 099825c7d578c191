import EvalMaxSat.Histories
import EvalMaxSat.ReferenceBackEnd

/-!
Lists of calls that are carried out, so that a concrete list gives a history.
-/
namespace EvalMaxSat
open Literals EvalMaxSAT StepProgram

variable {K : Type} {env : Env K} {core : K}

section Decidability
variable (d : Story) (s : EvalMaxSAT K)

instance (v : Nat) : Decidable (d.Declared v) :=
  inferInstanceAs (Decidable (v ∈ d.vars ∨ v ∈ d.softVars))

instance (clause : Clause) : Decidable (d.Over clause) :=
  inferInstanceAs (Decidable (∀ l ∈ clause, l ≠ 0 ∧ d.Declared l.natAbs))

instance decidableAdmits : (u : Update) → Decidable (d.Admits u)
  | .newSoftVar _ w => inferInstanceAs (Decidable (w ≠ 0 ∧ w.natAbs < 2 ^ 63))
  | .addClause clause none => inferInstanceAs (Decidable (d.Over clause))
  | .addClause clause (some w) =>
    inferInstanceAs (Decidable (d.Over clause ∧ w ≠ 0 ∧ w.natAbs < 2 ^ 63))
  | .addWeight lit w => inferInstanceAs (Decidable (d.Over [lit] ∧ w ≠ 0 ∧ w.natAbs < 2 ^ 63))
  | .newVar | .unactivateDelayStrategy | .unactivateMultiSolveStrategy | .unactivateUBStrategy
  | .disableOptimize | .setIncremental _ | .setNInputVars _ => inferInstanceAs (Decidable True)

instance decidablePositive : (u : Update) → Decidable u.Positive
  | .newSoftVar _ w | .addClause _ (some w) | .addWeight _ w => inferInstanceAs (Decidable (0 < w))
  | .addClause _ none | .newVar | .unactivateDelayStrategy | .unactivateMultiSolveStrategy
  | .unactivateUBStrategy | .disableOptimize | .setIncremental _ | .setNInputVars _ =>
    inferInstanceAs (Decidable True)

instance decidableFits : (u : Update) → Decidable (u.Fits s)
  | .addClause [lit] (some w) | .addWeight lit w =>
    inferInstanceAs (Decidable ((s.weight lit + w).natAbs < 2 ^ 63))
  | .addClause [] (some _) | .addClause (_ :: _ :: _) (some _) | .addClause [] none
  | .addClause [_] none | .addClause (_ :: _ :: _) none | .newSoftVar _ _ | .newVar | .unactivateDelayStrategy | .unactivateMultiSolveStrategy
  | .unactivateUBStrategy | .disableOptimize | .setIncremental _ | .setNInputVars _ =>
    inferInstanceAs (Decidable True)

instance decidableAnyCall : (c : Call) → Decidable (anyCall d s c)
  | .update u => inferInstanceAs (Decidable (d.Admits u))
  | .solve => inferInstanceAs (Decidable True)

instance decidablePositiveCall : (c : Call) → Decidable (positiveCall d s c)
  | .update u => inferInstanceAs (Decidable (d.Admits u ∧ u.Positive))
  | .solve => inferInstanceAs (Decidable True)

instance decidableFittingCall : (c : Call) → Decidable (fittingCall d s c)
  | .update u => inferInstanceAs (Decidable (d.Admits u ∧ u.Fits s))
  | .solve => inferInstanceAs (Decidable True)

end Decidability

/-- The calls `cs` from a state, where `fuel` bounds each solve. -/
def replay (env : Env K) (allow : Story → EvalMaxSAT K → Call → Prop)
    [∀ d s c, Decidable (allow d s c)] (fuel : Nat) :
    List Call → Story → List (EvalMaxSAT K) → EvalMaxSAT K →
      Option (Story × List (EvalMaxSAT K) × EvalMaxSAT K)
  | [], d, path, s => some (d, path, s)
  | .update u :: cs, d, path, s =>
    if allow d s (.update u) then
      match u.apply s with
      | none => none
      | some (x, t) => replay env allow fuel cs (d.record u x) (path ++ [t]) t
    else none
  | .solve :: cs, d, path, s =>
    if allow d s .solve then
      match (EvalMaxSAT.solve env).run fuel s with
      | (tr, .done _, t) => replay env allow fuel cs d (path ++ tr.map Event.after) t
      | _ => none
    else none

theorem replay_history {allow : Story → EvalMaxSAT K → Call → Prop}
    [∀ d s c, Decidable (allow d s c)] {fuel : Nat} {cs : List Call} {d d' : Story}
    {path path' : List (EvalMaxSAT K)} {s s' : EvalMaxSAT K} (h : History env core allow d path s)
    (replayed : replay env allow fuel cs d path s = some (d', path', s')) :
    History env core allow d' path' s' := by
  induction cs generalizing d path s with
  | nil =>
    simp only [replay, Option.some.injEq, Prod.mk.injEq] at replayed
    obtain ⟨rfl, rfl, rfl⟩ := replayed
    exact h
  | cons c cs ih =>
    cases c with
    | update u =>
      rw [replay] at replayed
      split at replayed
      · rename_i allowed
        split at replayed
        · simp at replayed
        · rename_i x t applied
          exact ih (.update h allowed applied) replayed
      · simp at replayed
    | solve =>
      rw [replay] at replayed
      split at replayed
      · rename_i allowed
        split at replayed
        · rename_i tr b t run
          exact ih (.solve h allowed ⟨trivial, fuel, run⟩) replayed
        · simp at replayed
      · simp at replayed

theorem history_of_replay (env : Env K) (core : K) (allow : Story → EvalMaxSAT K → Call → Prop)
    [∀ d s c, Decidable (allow d s c)] (fuel : Nat) (cs : List Call)
    (test : Story × List (EvalMaxSAT K) × EvalMaxSAT K → Bool)
    (passes : (replay env allow fuel cs .empty [fresh core] (fresh core)).any test = true) :
    ∃ d path s, History env core allow d path s ∧ test (d, path, s) = true := by
  obtain ⟨⟨d, path, s⟩, replayed, passed⟩ := (Option.any_eq_true _ _).mp passes
  exact ⟨d, path, s, replay_history .fresh replayed, passed⟩

end EvalMaxSat
