import EvalMaxSat.Rewriting
import EvalMaxSat.SignedClauses

/-!
What a state says about the formula that its caller gave: the clauses that were declared over
variables of `newVar`, and the weights of the soft ones.
-/
namespace EvalMaxSat
open Literals OrderedContainers EvalMaxSAT StepProgram

variable {K : Type} {env : Env K} {core : K} {s t u : EvalMaxSAT K} {d : Story}
  {path : List (EvalMaxSAT K)} {m k a : Assignment}

namespace Story

def OverVars (d : Story) (clause : Clause) : Prop := ∀ l ∈ clause, l ≠ 0 ∧ l.natAbs ∈ d.vars

/-- The sum of the weights of the soft clauses that the assignment falsifies. -/
def softCost (d : Story) (a : Assignment) : Nat :=
  (d.soft.map fun c => penalty c.1 c.2.toNat a).sum

/-- The calls that build a formula over variables of `newVar`, with weights that are positive. -/
def Builds (d : Story) : Update → Prop
  | .newVar => True
  | .newSoftVar _ _ => False
  | .addClause clause none => d.OverVars clause
  | .addClause clause (some w) => d.OverVars clause ∧ 0 < w ∧ w < 2 ^ 63
  | .addWeight lit w => d.OverVars [lit] ∧ 0 < w ∧ w < 2 ^ 63
  | _ => True

structure Closed (d : Story) : Prop where
  hard : ∀ c ∈ d.hard, d.OverVars c
  soft : ∀ c ∈ d.soft, d.OverVars c.1

theorem over_of_overVars {clause : Clause} (spoken : d.OverVars clause) : d.Over clause :=
  fun l mem => ⟨(spoken l mem).1, Or.inl (spoken l mem).2⟩

theorem admits_of_builds {u : Update} (builds : d.Builds u) : d.Admits u ∧ u.Positive := by
  cases u with
  | newSoftVar => exact builds.elim
  | addClause clause w =>
    cases w with
    | none => exact ⟨over_of_overVars builds, trivial⟩
    | some w =>
      obtain ⟨spoken, pos, range⟩ := builds
      exact ⟨⟨over_of_overVars spoken, by omega, by omega⟩, pos⟩
  | addWeight lit w =>
    obtain ⟨spoken, pos, range⟩ := builds
    exact ⟨⟨over_of_overVars spoken, by omega, by omega⟩, pos⟩
  | _ => exact ⟨trivial, trivial⟩

theorem vars_record (u : Update) (x : Int) : d.vars ⊆ (d.record u x).vars := by
  cases u with
  | newVar => exact List.subset_append_left _ _
  | addClause clause w => cases w <;> exact List.Subset.refl _
  | _ => exact List.Subset.refl _

theorem overVars_record {u : Update} {x : Int} {clause : Clause} (spoken : d.OverVars clause) :
    (d.record u x).OverVars clause :=
  fun l mem => ⟨(spoken l mem).1, vars_record u x (spoken l mem).2⟩

theorem closed_record {u : Update} {x : Int} (closed : d.Closed) (builds : d.Builds u) :
    (d.record u x).Closed := by
  have old : (∀ c ∈ d.hard, (d.record u x).OverVars c) ∧
      ∀ c ∈ d.soft, (d.record u x).OverVars c.1 :=
    ⟨fun c mem => overVars_record (closed.hard c mem), fun c mem => overVars_record (closed.soft c mem)⟩
  cases u with
  | newSoftVar => exact builds.elim
  | addClause clause w =>
    cases w with
    | none =>
      refine ⟨fun c mem => ?_, old.2⟩
      rcases List.mem_append.mp mem with mem | mem
      · exact old.1 c mem
      · rw [List.mem_singleton.mp mem]
        exact overVars_record (u := .addClause clause none) (x := x) builds
    | some w =>
      refine ⟨old.1, fun c mem => ?_⟩
      rcases List.mem_append.mp mem with mem | mem
      · exact old.2 c mem
      · rw [List.mem_singleton.mp mem]
        exact overVars_record (u := .addClause clause (some w)) (x := x) builds.1
  | addWeight lit w =>
    refine ⟨old.1, fun c mem => ?_⟩
    rcases List.mem_append.mp mem with mem | mem
    · exact old.2 c mem
    · rw [List.mem_singleton.mp mem]
      exact overVars_record (u := .addWeight lit w) (x := x) builds.1
  | newVar => exact ⟨old.1, old.2⟩
  | unactivateDelayStrategy | unactivateMultiSolveStrategy | unactivateUBStrategy | disableOptimize
  | setIncremental value | setNInputVars n => exact closed

theorem holds_over {clause : Clause} (spoken : d.OverVars clause) (agree : ∀ v ∈ d.vars, m v = a v) :
    Holds m clause ↔ Holds a clause := by
  have same : ∀ l ∈ clause, litTrue m l = litTrue a l := fun l mem =>
    litTrue_congr (agree _ (spoken l mem).2)
  constructor
  · rintro ⟨l, mem, value⟩
    exact ⟨l, mem, by rw [← same l mem]; exact value⟩
  · rintro ⟨l, mem, value⟩
    exact ⟨l, mem, by rw [same l mem]; exact value⟩

theorem penalty_over {clause : Clause} {w : Nat} (spoken : d.OverVars clause)
    (agree : ∀ v ∈ d.vars, m v = a v) : penalty clause w m = penalty clause w a := by
  simp only [penalty, holds_over spoken agree]

theorem hard_over (closed : d.Closed) (agree : ∀ v ∈ d.vars, m v = a v) :
    Models m d.hard ↔ Models a d.hard :=
  forall₂_congr fun c mem => holds_over (closed.hard c mem) agree

theorem softCost_over (closed : d.Closed) (agree : ∀ v ∈ d.vars, m v = a v) :
    d.softCost m = d.softCost a := by
  rw [softCost, softCost]
  congr 1
  exact List.map_congr_left fun c mem => penalty_over (closed.soft c mem) agree

theorem softCost_le (d : Story) (a : Assignment) : d.softCost a ≤ d.total := by
  rw [softCost, total]
  apply List.sum_le_sum
  intro c _
  rw [penalty]
  split <;> omega

end Story

/-- `s` describes the formula of `d`: its models satisfy the hard clauses and cost no less than
they should, and each assignment that `φ` holds of has a model that costs what it should. -/
structure Faithful (d : Story) (φ : Assignment → Prop) (s : EvalMaxSAT K) : Prop where
  known : ∀ v ∈ d.vars, v ≤ s.solver.nVar
  sound : ∀ m, Models m s.solver.clauses → Models m d.hard ∧ d.softCost m ≤ s.objective m
  complete : ∀ a, Models a d.hard → φ a → ∃ m : Assignment, (∀ v ∈ d.vars, m v = a v) ∧
    Models m s.solver.clauses ∧ s.Canonical m ∧ s.objective m = d.softCost a

abbrev Every : Assignment → Prop := fun _ => True

theorem faithful_mono {φ ψ : Assignment → Prop} (h : Faithful d φ s) (fewer : ∀ a, ψ a → φ a) :
    Faithful d ψ s :=
  ⟨h.known, h.sound, fun a models holds => h.complete a models (fewer a holds)⟩

theorem faithful_congr {φ : Assignment → Prop} (h : Faithful d φ s)
    (vars : t.solver.nVar = s.solver.nVar) (clauses : t.solver.clauses = s.solver.clauses) (poids : t.poids = s.poids)
    (cards : t.cards = s.cards) (pending : t.cardToAdd = s.cardToAdd) (cost : t.cost = s.cost) :
    Faithful d φ t := by
  have objective : ∀ m, t.objective m = s.objective m := by
    intro m
    simp only [EvalMaxSAT.objective, EvalMaxSAT.owed, poids, cards, pending, cost]
  refine ⟨by rw [vars]; exact h.known, fun m models => ?_, fun a models holds => ?_⟩
  · rw [clauses] at models
    rw [objective]
    exact h.sound m models
  · obtain ⟨m, agree, models', canonical, eq⟩ := h.complete a models holds
    refine ⟨m, agree, by rw [clauses]; exact models', ?_, by rw [objective]; exact eq⟩
    unfold EvalMaxSAT.Canonical
    rw [cards]
    exact canonical

section Updates

theorem faithful_fresh (core : K) : Faithful .empty Every (fresh core) := by
  have objective : ∀ m, (fresh core).objective m = 0 := by
    intro m
    simp [EvalMaxSAT.objective, EvalMaxSAT.owed, fresh, softSum, pendingSum, cardSum,
      WeightVector.size]
  refine ⟨by simp [Story.empty], fun m _ => ⟨by simp [Story.empty, Models], by simp [Story.empty, Story.softCost]⟩,
    fun a _ _ => ⟨a, fun _ _ => rfl, by simp [fresh, Models], by simp [EvalMaxSAT.Canonical, fresh], ?_⟩⟩
  rw [objective]
  simp [Story.empty, Story.softCost]

theorem faithful_newVar (between : Between d s) (h : Faithful d Every s) :
    Faithful (d.record .newVar ((s.solver.nVar + 1 : Nat) : Int)) Every (s.grow 1 []) := by
  have wf := between.sane.wf
  have objective : ∀ m, (s.grow 1 []).objective m = s.objective m := by
    intro m
    rw [EvalMaxSAT.objective, owed_grow]
    rfl
  have clauses : (s.grow 1 []).solver.clauses = s.solver.clauses := List.append_nil _
  refine ⟨fun v mem => ?_, fun m models => ?_, fun a models _ => ?_⟩
  · rcases List.mem_append.mp mem with old | new
    · exact (h.known v old).trans (Nat.le_succ _)
    · rw [List.mem_singleton.mp new, Int.natAbs_natCast]
      exact Nat.le_refl _
  · rw [clauses] at models
    rw [objective]
    exact h.sound m models
  · obtain ⟨m, agree, models', canonical, eq⟩ := h.complete a models trivial
    have far : AgreeUpTo s.solver.nVar m (assign m (s.solver.nVar + 1) (a (s.solver.nVar + 1))) :=
      assign_agree (Nat.lt_succ_self _)
    refine ⟨_, fun v mem => ?_, ?_, canonical_agree wf far canonical, ?_⟩
    · rcases List.mem_append.mp mem with old | new
      · rw [far v (h.known v old)]
        exact agree v old
      · rw [List.mem_singleton.mp new, Int.natAbs_natCast, assign_self]
    · rw [clauses]
      exact (models_agree far wf.within).mpr models'
    · rw [objective, EvalMaxSAT.objective, owed_agree wf far]
      exact eq

theorem models_record {clause : Clause} {x : Int} : Models m (d.record (.addClause clause none) x).hard ↔
    Models m d.hard ∧ Holds m clause := by
  rw [Story.record, models_append, models_singleton]

theorem faithful_hard {clause : Clause} (between : Between d s) (spoken : d.OverVars clause)
    (room : s.cost + s.potential < 2 ^ 64) (h : Faithful d Every s) :
    Faithful (d.record (.addClause clause none) 0) Every (s.addHardClause clause) := by
  have sane := between.sane
  obtain ⟨within, _⟩ := between_within between (Story.over_of_overVars spoken)
  obtain ⟨less, sim, cost, sub⟩ : ∃ less, SimOn (Holds · clause) less s (s.addHardClause clause) ∧
      (∀ m, Holds m clause → (s.addHardClause clause).cost = s.cost + less (falsified m)) ∧
      clause ∈ (s.addHardClause clause).solver.clauses := by
    by_cases unit : clause.length = 1
    · obtain ⟨lit, rfl⟩ := List.length_eq_one_iff.mp unit
      obtain ⟨nonzero, bound⟩ := within lit (by simp)
      have spec := addUnit_spec sane.wf nonzero bound
      refine ⟨_, spec.sim, fun m holds => ?_, spec.fixed⟩
      have paid := spec.sim.potential
      rw [unitCharge_every] at paid
      rw [unitCharge_true sane.wf (holds_unit.mp holds), spec.cost]
      split
      · rw [show (s.cost : Int) - s.weight lit = ((s.cost + (s.weight lit).natAbs : Nat) : Int) by omega,
          u64_of_nat (by omega)]
        omega
      · omega
    · rw [addHardClause_grow within unit]
      exact ⟨_, simOn_addClause sane.wf clause, fun m _ => rfl, by simp [EvalMaxSAT.grow]⟩
  refine ⟨fun v mem => (h.known v mem).trans sim.vars, fun m models => ?_, fun a models _ => ?_⟩
  · have holds := models clause sub
    have before := h.sound m fun c mem => models c (sim.clauses mem)
    have least := sim.backward m models
    refine ⟨models_record.mpr ⟨before.1, holds⟩, before.2.trans ?_⟩
    have := cost m holds
    rw [EvalMaxSAT.objective, EvalMaxSAT.objective]
    omega
  · obtain ⟨old, holds⟩ := models_record.mp models
    obtain ⟨m, agree, models', canonical, eq⟩ := h.complete a old trivial
    have holdsM := (Story.holds_over spoken agree).mpr holds
    obtain ⟨k, far, modelsK, canonicalK, owed⟩ := sim.forward m models' canonical holdsM
    refine ⟨k, fun v mem => ?_, modelsK, canonicalK, ?_⟩
    · rw [far v (h.known v mem)]
      exact agree v mem
    · have := cost m holdsM
      rw [EvalMaxSAT.objective] at eq ⊢
      change _ = d.softCost a
      omega

theorem softCost_append {clause : Clause} {w : Int} {e : Story}
    (soft : e.soft = d.soft ++ [(clause, w)]) (a : Assignment) :
    e.softCost a = d.softCost a + penalty clause w.toNat a := by
  simp [Story.softCost, soft]

theorem faithful_soft {clause : Clause} {w : Nat} {e : Story} (between : Between d s)
    (spoken : d.OverVars clause) (pos : 0 < w) (small : w < 2 ^ 63)
    (fits : ∀ l, clause = [l] → (s.weight l + w).natAbs < 2 ^ 63)
    (room : s.cost + s.potential + w < 2 ^ 64) (h : Faithful d Every s) (vars : e.vars = d.vars)
    (hard : e.hard = d.hard) (soft : e.soft = d.soft ++ [(clause, (w : Int))]) :
    Faithful e Every (s.addSoftClause clause w).2 := by
  have sane := between.sane
  obtain ⟨within, plain⟩ := between_within between (Story.over_of_overVars spoken)
  obtain ⟨p, spec⟩ := addSoftClause_soft sane within plain pos small fits
  have adds := spec.adds
  have cost : (s.addSoftClause clause w).2.cost = s.cost + p := by
    have := adds.potential
    rw [spec.cost, ← Nat.cast_add, u64_of_nat (by omega)]
  refine ⟨fun v mem => (h.known v (by rw [← vars]; exact mem)).trans adds.vars, fun m models => ?_,
    fun a models _ => ?_⟩
  · obtain ⟨satisfied, le⟩ := h.sound m fun c mem => models c (adds.clauses mem)
    have least := adds.backward m models
    rw [EvalMaxSAT.objective] at le
    refine ⟨by rw [hard]; exact satisfied, ?_⟩
    rw [softCost_append soft, Int.toNat_natCast, EvalMaxSAT.objective]
    omega
  · rw [hard] at models
    obtain ⟨m, agree, models', canonical, eq⟩ := h.complete a models trivial
    obtain ⟨k, far, modelsK, canonicalK, owed⟩ := adds.forward m models' canonical
    refine ⟨k, fun v mem => ?_, modelsK, canonicalK, ?_⟩
    · rw [vars] at mem
      rw [far v (h.known v mem)]
      exact agree v mem
    · rw [Story.penalty_over spoken agree] at owed
      rw [softCost_append soft, Int.toNat_natCast]
      rw [EvalMaxSAT.objective] at eq ⊢
      omega

theorem faithful_apply {u : Update} {x : Int} (between : Between d s)
    (builds : d.Builds u) (fits : u.Fits s) (room : s.cost + s.potential + u.load < 2 ^ 64)
    (h : Faithful d Every s) (applied : u.apply s = some (x, t)) :
    Faithful (d.record u x) Every t := by
  cases u with
  | newVar =>
    rw [Update.apply, newVar_eq] at applied
    simp only [Option.some.injEq, Prod.mk.injEq] at applied
    obtain ⟨rfl, rfl⟩ := applied
    exact faithful_newVar between h
  | newSoftVar => exact builds.elim
  | addClause clause w =>
    cases w with
    | none =>
      rw [Update.apply, EvalMaxSAT.addClause] at applied
      simp only [Option.some.injEq, Prod.mk.injEq] at applied
      obtain ⟨rfl, rfl⟩ := applied
      exact faithful_hard between builds (by omega) h
    | some w =>
      obtain ⟨spoken, pos, range⟩ := builds
      have same : w = (w.natAbs : Int) := by omega
      have added := addClause_some (by omega) applied
      have soft := faithful_soft (e := d.record (.addClause clause (some w)) x) (w := w.natAbs) between
        spoken (by omega) (by omega) (by rintro l rfl; rw [← same]; exact fits) room h rfl rfl
        (by rw [← same]; rfl)
      rw [← same, added] at soft
      exact soft
  | addWeight lit w =>
    obtain ⟨spoken, pos, range⟩ := builds
    have same : w = (w.natAbs : Int) := by omega
    rw [Update.apply] at applied
    simp only [Option.some.injEq, Prod.mk.injEq] at applied
    obtain ⟨rfl, rfl⟩ := applied
    have soft := faithful_soft (e := d.record (.addWeight lit w) 0) (w := w.natAbs) between
      spoken (by omega) (by omega) (by
        intro l eq
        rw [← List.singleton_inj.mp eq, ← same]
        exact fits) room h rfl rfl (by rw [← same]; rfl)
    rw [← same, addSoftClause_unit] at soft
    exact soft
  | unactivateDelayStrategy | unactivateMultiSolveStrategy | unactivateUBStrategy | disableOptimize
  | setIncremental value | setNInputVars n =>
    rw [Update.apply] at applied
    simp only [Option.some.injEq, Prod.mk.injEq] at applied
    rw [← applied.2]
    exact faithful_congr h rfl rfl rfl rfl rfl rfl

end Updates
end EvalMaxSat
