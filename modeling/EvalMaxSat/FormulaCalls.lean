import EvalMaxSat.Optimality

/-!
Histories of calls that build a formula: between two of them the state describes the formula, as
long as no solve has hardened.
-/
namespace EvalMaxSat
open Literals OrderedContainers EvalMaxSAT StepProgram

variable {K : Type} {env : Env K} {core : K} {s t : EvalMaxSAT K} {d : Story}
  {path : List (EvalMaxSAT K)}

section Decidability
variable (d : Story)

instance (clause : Clause) : Decidable (d.OverVars clause) :=
  inferInstanceAs (Decidable (∀ l ∈ clause, l ≠ 0 ∧ l.natAbs ∈ d.vars))

instance decidableBuilds : (u : Update) → Decidable (d.Builds u)
  | .newSoftVar _ _ => inferInstanceAs (Decidable False)
  | .addClause clause none => inferInstanceAs (Decidable (d.OverVars clause))
  | .addClause clause (some w) =>
    inferInstanceAs (Decidable (d.OverVars clause ∧ 0 < w ∧ w < 2 ^ 63))
  | .addWeight lit w => inferInstanceAs (Decidable (d.OverVars [lit] ∧ 0 < w ∧ w < 2 ^ 63))
  | .newVar | .unactivateDelayStrategy | .unactivateMultiSolveStrategy | .unactivateUBStrategy
  | .disableOptimize | .setIncremental _ | .setNInputVars _ => inferInstanceAs (Decidable True)

end Decidability

section Steady

/-- No step of the solve from `s` hardens. -/
def Unhardened (env : Env K) (s : EvalMaxSAT K) : Prop :=
  ∀ tr o t, (solve env).Ends s tr o t → ∀ e ∈ tr, e.label ≠ .harden

def steadyCall (env : Env K) (d : Story) (s : EvalMaxSAT K) : Call → Prop
  | .update u => d.Builds u ∧ u.Fits s
  | .solve => Unhardened env s

theorem faithful_solveStep {e : Event StepKind (EvalMaxSAT K)} (step : SolveStep e)
    (room : e.before.cost + e.before.potential < 2 ^ 64) (other : e.label ≠ .harden)
    (h : Faithful d Every e.before) : Faithful d Every e.after := by
  cases step with
  | enter _ _ => exact faithful_congr h rfl rfl rfl rfl rfl rfl
  | leave _ => exact faithful_congr h rfl rfl rfl rfl rfl rfl
  | inside ok => exact faithful_other room h ok.2.2 other

theorem budget_solveStep {e : Event StepKind (EvalMaxSAT K)} (step : SolveStep e)
    (room : e.before.cost + e.before.potential < 2 ^ 64) :
    e.after.cost + e.after.potential ≤ e.before.cost + e.before.potential := by
  cases step with
  | enter _ _ => exact Nat.le_refl _
  | leave _ => exact Nat.le_refl _
  | inside ok => exact (effect_conserves ok.1 ok.2.2 room).2

theorem faithful_ends {tr : Trace K} {o : Outcome Bool} (sound : env.Sound) (between : Between d s)
    (ends : (solve env).Ends s tr o t) (unhardened : ∀ e ∈ tr, e.label ≠ .harden)
    (room : d.total < 2 ^ 64) (budget : s.cost + s.potential ≤ d.total) (h : Faithful d Every s) :
    (Faithful d Every t ∧ t.cost + t.potential ≤ d.total) ∧
      ∀ e ∈ tr, Faithful d Every e.before ∧ Faithful d Every e.after := by
  obtain ⟨_, steps, ok, _⟩ := steps_of_ends sound between.sane between.idle ends
  obtain ⟨final, during⟩ := chain_invariant
    (fun u => Faithful d Every u ∧ u.cost + u.potential ≤ d.total) steps ⟨h, budget⟩
    fun e mem before =>
      have inside : e.before.cost + e.before.potential < 2 ^ 64 := Nat.lt_of_le_of_lt before.2 room
      ⟨faithful_solveStep (ok e mem) inside (unhardened e mem) before.1,
        (budget_solveStep (ok e mem) inside).trans before.2⟩
  exact ⟨final, fun e mem => ⟨(during e mem).1.1, (during e mem).2.1⟩⟩

/-- What holds of a formula between two calls. -/
structure Described (d : Story) (s : EvalMaxSAT K) : Prop where
  between : Between d s
  closed : d.Closed
  budget : s.cost + s.potential ≤ d.total
  faithful : Faithful d Every s

theorem described_fresh (core : K) : Described .empty (fresh core) where
  between := between_fresh core
  closed := ⟨by simp [Story.empty], by simp [Story.empty]⟩
  budget := by simp [potential_eq, fresh, WeightVector.size]
  faithful := faithful_fresh core

theorem described_apply {u : Update} {x : Int} (h : Described d s) (builds : d.Builds u)
    (fits : u.Fits s) (room : d.total + u.load < 2 ^ 64) (applied : u.apply s = some (x, t)) :
    Described (d.record u x) t := by
  obtain ⟨admits, positive⟩ := Story.admits_of_builds builds
  have budget := h.budget
  obtain ⟨changed, _⟩ := changed_of_apply h.between admits fits applied
  have spent := changed.spent positive (by omega)
  refine ⟨between_of_apply h.between admits fits applied, Story.closed_record h.closed builds, ?_,
    faithful_apply h.between builds fits (by omega) h.faithful applied⟩
  rw [Story.total_record]
  omega

theorem history_described (sound : env.Sound) (h : History env core (steadyCall env) d path s)
    (room : d.total < 2 ^ 64) : Described d s := by
  induction h with
  | fresh => exact described_fresh core
  | update _ allowed applied ih =>
    rw [Story.total_record] at room
    exact described_apply (ih (by omega)) allowed.1 allowed.2 room applied
  | solve _ allowed ends ih =>
    have before := ih room
    obtain ⟨⟨faithful, budget⟩, _⟩ := faithful_ends sound before.between ends (allowed _ _ _ ends)
      room before.budget before.faithful
    exact ⟨(between_of_ends sound before.between ends).1, before.closed, budget, faithful⟩

theorem history_steady {allow : Story → EvalMaxSAT K → Call → Prop} (sound : env.Sound)
    (builds : ∀ d s u, allow d s (.update u) → d.Builds u)
    (unhardened : ∀ d s, Between d s → allow d s .solve → Unhardened env s)
    (h : History env core allow d path s) (small : d.total < 2 ^ 63) :
    History env core (fun d s c => allow d s c ∧ steadyCall env d s c) d path s := by
  induction h with
  | fresh => exact .fresh
  | @update d path s u x t _ allowed applied ih =>
    rw [Story.total_record] at small
    have steady := ih (by omega)
    have before := history_described sound (history_mono (fun _ _ _ both => both.2) steady) (by omega)
    have budget := before.budget
    exact .update steady ⟨allowed, builds _ _ _ allowed,
      fits_of_total before.between (by omega) small⟩ applied
  | solve _ allowed ends ih =>
    have steady := ih small
    have before := history_described sound (history_mono (fun _ _ _ both => both.2) steady) (by omega)
    exact .solve steady ⟨allowed, unhardened _ _ before.between allowed⟩ ends

end Steady

section Modes

def buildingCall (d : Story) (_ : EvalMaxSAT K) : Call → Prop
  | .update u => d.Builds u
  | .solve => False

def incrementalCall (d : Story) (s : EvalMaxSAT K) : Call → Prop
  | .update u => d.Builds u
  | .solve => s.isIncremental = true

instance (d : Story) (s : EvalMaxSAT K) : (c : Call) → Decidable (buildingCall d s c)
  | .update u => decidableBuilds d u
  | .solve => inferInstanceAs (Decidable False)

instance (d : Story) (s : EvalMaxSAT K) : (c : Call) → Decidable (incrementalCall d s c)
  | .update u => decidableBuilds d u
  | .solve => inferInstanceAs (Decidable (s.isIncremental = true))

theorem unhardened_of_incremental (sound : env.Sound) (between : Between d s)
    (mode : s.isIncremental = true) : Unhardened env s := by
  intro tr o t ends e mem harden
  obtain ⟨_, steps, ok, _⟩ := steps_of_ends sound between.sane between.idle ends
  obtain ⟨_, during⟩ := chain_invariant (fun u => u.isIncremental = true) steps mode (by
    intro e mem before
    cases ok e mem with
    | enter _ _ => exact before
    | leave _ => exact before
    | @inside lo _ okE =>
      obtain ⟨_, _, effect⟩ := okE
      by_cases bound : e.label = .bound
      · rw [bound] at effect
        obtain ⟨c, sol, eq, _⟩ := effect
        rw [eq]
        exact before
      · have same := effect_aside effect bound
        simp only [EvalMaxSAT.aside, Prod.mk.injEq] at same
        simp only [same]
        exact before)
  have before := (during e mem).1
  obtain ⟨label, b, a⟩ := e
  cases harden
  cases ok _ mem with
  | inside okE =>
    obtain ⟨_, _, mode', _⟩ := okE
    rw [before] at mode'
    simp at mode'

end Modes
end EvalMaxSat
