import EvalMaxSat.Meaning

/-!
What a solve keeps of the formula: the assignments that can still beat the solution it has, and
the worth of that solution.
-/
namespace EvalMaxSat
open Literals OrderedContainers EvalMaxSAT StepProgram

variable {K : Type} {env : Env K} {core : K} {s t u : EvalMaxSAT K} {d : Story}
  {path : List (EvalMaxSAT K)} {m k a : Assignment} {lo : Option LocalOptimizer2}

section Steps

/-- Hardening may lose an assignment only when it does not beat the solution. -/
def Live (d : Story) (s : EvalMaxSAT K) (a : Assignment) : Prop :=
  s.isIncremental = true ∨ d.softCost a < s.solutionCost

theorem live_aside (same : t.aside = s.aside) : Live d t = Live d s := by
  simp only [EvalMaxSAT.aside, Prod.mk.injEq] at same
  funext a
  simp only [Live, same]

theorem faithful_rewrites {φ : Assignment → Prop} {p : Nat} (room : s.cost + s.potential < 2 ^ 64)
    (h : Faithful d φ s) (rewrites : Rewrites p s t) : Faithful d φ t := by
  have sim := rewrites.sim
  have objective := objective_rewrites room rewrites
  refine ⟨fun v mem => (h.known v mem).trans sim.vars, fun m models => ?_, fun a models holds => ?_⟩
  · obtain ⟨satisfied, le⟩ := h.sound m fun c mem => models c (sim.clauses mem)
    have least := sim.backward m models
    rw [EvalMaxSAT.objective] at le
    exact ⟨satisfied, by rw [objective]; omega⟩
  · obtain ⟨m, agree, models', canonical, eq⟩ := h.complete a models holds
    obtain ⟨k, far, modelsK, canonicalK, owed⟩ := sim.forward m models' canonical trivial
    refine ⟨k, fun v mem => ?_, modelsK, canonicalK, ?_⟩
    · rw [far v (h.known v mem)]
      exact agree v mem
    · rw [EvalMaxSAT.objective] at eq
      rw [objective]
      omega

theorem charge_le_softSum {ws : List Int} (wf : Wf ws s) (γ : Gauge) (lit : Int) :
    charge γ lit (s.weight lit) ≤ softSum γ s.poids := by
  by_cases weighted : s.weight lit = 0
  · rw [weighted, charge_zero]
    exact Nat.zero_le _
  · have bound := (wf.weighted_inside weighted).2
    have side : charge γ lit (s.weight lit) =
        charge γ lit.natAbs (s.poids.weight.getD lit.natAbs 0) := by
      rw [WeightVector.entry_eq wf.poids_bounded lit, WeightVector.signed]
      change charge γ lit (s.weight lit) =
        charge γ lit.natAbs (if lit < 0 then -s.weight lit else s.weight lit)
      split
      · rw [show (lit.natAbs : Int) = -lit by omega, charge_neg]
      · rw [show (lit.natAbs : Int) = lit by omega]
    rw [side]
    exact Finset.single_le_sum (f := fun i : Nat => charge γ i (s.poids.weight.getD i 0))
      (fun _ _ => Nat.zero_le _) (Finset.mem_range.mpr (wf.inside bound))

theorem heavy_true {ws : List Int} {lit : Int} (wf : Wf ws s) (word : s.solutionCost < 2 ^ 64)
    (soft : 0 < s.weight lit)
    (heavy : (u64 ((s.solutionCost : Int) - s.cost) : Int) ≤ s.weight lit)
    (beats : s.objective m < s.solutionCost) : litTrue m lit = true := by
  by_contra wrong
  have value : litTrue m lit = false := by simpa using wrong
  have range := wf.weight_range lit
  have paid := charge_le_softSum wf (falsified m) lit
  simp only [charge, if_pos soft, falsified, value, Bool.not_false, if_true] at paid
  have all : s.cost + (s.weight lit).toNat ≤ s.objective m := by
    rw [EvalMaxSAT.objective, EvalMaxSAT.owed]
    omega
  rw [u64_toNat (by omega) (by omega)] at heavy
  omega

theorem faithful_harden (sane : Sane s) (word : s.solutionCost < 2 ^ 64)
    (h : Faithful d (Live d s) s) (hardens : Hardens s t) : Faithful d (Live d t) t := by
  obtain ⟨mode, lit, soft, heavy, unit⟩ := hardens
  have sim := unit.sim
  have same : Live d t = Live d s := live_aside (congrArg (fun b => b.2.2) unit.besides)
  have cost : t.cost = s.cost := by
    rw [unit.cost, if_neg (by omega)]
  have free : ∀ m, litTrue m lit = true → s.unitCharge lit (falsified m) = 0 := by
    intro m value
    rw [unitCharge_true sane.wf value]
    omega
  rw [same]
  refine ⟨fun v mem => (h.known v mem).trans sim.vars, fun m models => ?_, fun a models live => ?_⟩
  · obtain ⟨satisfied, le⟩ := h.sound m fun c mem => models c (sim.clauses mem)
    have least := sim.backward m models
    rw [free m (holds_unit.mp (models _ unit.fixed))] at least
    rw [EvalMaxSAT.objective] at le ⊢
    exact ⟨satisfied, by omega⟩
  · obtain ⟨m, agree, models', canonical, eq⟩ := h.complete a models live
    have beats : d.softCost a < s.solutionCost := by
      rcases live with incremental | beats
      · rw [mode] at incremental
        simp at incremental
      · exact beats
    have value := heavy_true sane.wf word soft heavy (by rw [eq]; exact beats)
    obtain ⟨k, far, modelsK, canonicalK, owed⟩ :=
      sim.forward m models' canonical (holds_unit.mpr value)
    rw [free m value] at owed
    refine ⟨k, fun v mem => ?_, modelsK, canonicalK, ?_⟩
    · rw [far v (h.known v mem)]
      exact agree v mem
    · rw [EvalMaxSAT.objective] at eq ⊢
      omega

/-- A step that does not harden keeps all that is known of the formula. -/
theorem faithful_other {kind : StepKind} {φ : Assignment → Prop}
    (room : s.cost + s.potential < 2 ^ 64) (h : Faithful d φ s) (effect : Effect lo kind s t)
    (other : kind ≠ .harden) : Faithful d φ t := by
  cases kind with
  | start => exact effect.elim
  | stop => exact effect.elim
  | harden => exact absurd rfl other
  | query =>
    obtain ⟨core, last, rfl⟩ := effect
    exact faithful_congr h rfl rfl rfl rfl rfl rfl
  | dropBucket =>
    obtain ⟨map, rfl⟩ := effect
    exact faithful_congr h rfl rfl rfl rfl rfl rfl
  | bound =>
    obtain ⟨c, sol, rfl, _⟩ := effect
    exact faithful_congr h rfl rfl rfl rfl rfl rfl
  | relax => exact faithful_rewrites room h effect.1
  | card => exact faithful_rewrites room h effect.1
  | unit => obtain ⟨p, rewrites, _⟩ := effect; exact faithful_rewrites room h rewrites
  | core => obtain ⟨_, p, _, rewrites, _⟩ := effect; exact faithful_rewrites room h rewrites
  | amo => obtain ⟨p, _, rewrites, _⟩ := effect; exact faithful_rewrites room h rewrites
  | clique clause => rw [show t = s from effect.1]; exact h
  | assums minWeight assum => rw [show t = s from effect.1]; exact h
  | report c => rw [show t = s from effect.1]; exact h

theorem effect_aside {kind : StepKind} (effect : Effect lo kind s t) (other : kind ≠ .bound) :
    t.aside = s.aside := by
  cases kind with
  | start => exact effect.elim
  | stop => exact effect.elim
  | bound => exact absurd rfl other
  | query => obtain ⟨core, last, rfl⟩ := effect; rfl
  | dropBucket => obtain ⟨map, rfl⟩ := effect; rfl
  | harden =>
    obtain ⟨_, _, _, _, unit⟩ := effect
    exact congrArg (fun b => b.2.2) unit.besides
  | relax => exact effect.1.aside
  | card => exact effect.1.aside
  | unit => obtain ⟨_, rewrites, _⟩ := effect; exact rewrites.aside
  | core => obtain ⟨_, _, _, rewrites, _⟩ := effect; exact rewrites.aside
  | amo => obtain ⟨_, _, rewrites, _⟩ := effect; exact rewrites.aside
  | clique clause => rw [show t = s from effect.1]
  | assums minWeight assum => rw [show t = s from effect.1]
  | report c => rw [show t = s from effect.1]

theorem faithful_effect {kind : StepKind} (sane : Sane s) (room : s.cost + s.potential < 2 ^ 64)
    (word : s.solutionCost < 2 ^ 64) (h : Faithful d (Live d s) s) (effect : Effect lo kind s t) :
    Faithful d (Live d t) t := by
  by_cases harden : kind = .harden
  · rw [harden] at effect
    exact faithful_harden sane word h effect
  · refine faithful_mono (faithful_other room h effect harden) fun a live => ?_
    by_cases bound : kind = .bound
    · rw [bound] at effect
      obtain ⟨c, sol, rfl, improves⟩ := effect
      exact live.imp_right fun beats => Nat.lt_trans beats improves.lower
    · rwa [live_aside (effect_aside effect bound)] at live

end Steps

section Bounds

/-- The stored solution is worth what is claimed, once there is one. -/
structure Stored (d : Story) (s : EvalMaxSAT K) : Prop where
  word : s.solutionCost ≤ maxWeight
  worth : s.solutionCost ≠ maxWeight → Models (assignment s.solution) d.hard ∧
    d.softCost (assignment s.solution) ≤ s.solutionCost

/-- The local optimizer does not count a model of `f` too cheap. -/
def Fair (d : Story) (lo : Option LocalOptimizer2) (f : Cnf) (sol : List Bool) : Prop :=
  ∀ l, lo = some l → Models (assignment sol) f →
    d.softCost (assignment sol) ≤ l.calculateCostAssign sol

/-- The bound becomes the cost, with a model that owes nothing. -/
def ExactBound (s t : EvalMaxSAT K) : Prop :=
  t.solutionCost = s.cost ∧ s.owed (falsified (assignment t.solution)) = 0

theorem stored_aside (stored : Stored d s) (same : t.aside = s.aside) : Stored d t := by
  simp only [EvalMaxSAT.aside, Prod.mk.injEq] at same
  obtain ⟨_, solution, cost, _⟩ := same
  exact ⟨by rw [cost]; exact stored.word, by rw [cost, solution]; exact stored.worth⟩

theorem improves_worth {φ : Assignment → Prop} {f : Cnf} {c : Nat} {sol : List Bool}
    (h : Faithful d φ s) (improves : Improves lo s c sol) (sub : f ⊆ s.solver.clauses)
    (fair : (c = s.cost ∧ s.owed (falsified (assignment sol)) = 0) ∨ Fair d lo f sol) :
    Models (assignment sol) d.hard ∧ d.softCost (assignment sol) ≤ c := by
  obtain ⟨satisfied, le⟩ := h.sound _ improves.models
  refine ⟨satisfied, ?_⟩
  have paid : c = s.cost → s.owed (falsified (assignment sol)) = 0 →
      d.softCost (assignment sol) ≤ c := by
    rintro rfl none
    rwa [EvalMaxSAT.objective, none] at le
  rcases fair with ⟨exact_c, none⟩ | fair
  · exact paid exact_c none
  · rcases improves.counted with ⟨exact_c, none⟩ | ⟨l, here, rfl⟩
    · exact paid exact_c none
    · exact fair l here fun c mem => improves.models c (sub mem)

theorem stored_effect {kind : StepKind} {φ : Assignment → Prop} {f : Cnf} (h : Faithful d φ s)
    (fair : kind = .bound → ExactBound s t ∨ Fair d lo f t.solution) (sub : f ⊆ s.solver.clauses)
    (stored : Stored d s) (effect : Effect lo kind s t) : Stored d t := by
  by_cases bound : kind = .bound
  · replace fair := fair bound
    rw [bound] at effect
    obtain ⟨c, sol, rfl, improves⟩ := effect
    exact ⟨Nat.le_of_lt (Nat.lt_of_lt_of_le improves.lower stored.word),
      fun _ => improves_worth h improves sub fair⟩
  · exact stored_aside stored (effect_aside effect bound)

section Count

theorem loss_eq {ws : List Int} (wf : Wf ws s) (c : Nat) (sol : List Bool) :
    (⟨s.poids, c⟩ : LocalOptimizer2).loss sol = softSum (falsified (assignment sol)) s.poids := by
  let g : Nat → Nat := fun i => charge (falsified (assignment sol)) i (s.poids.weight.getD i 0)
  have whole : softSum (falsified (assignment sol)) s.poids =
      ((List.range s.poids.size).map g).sum := rfl
  have zero : g 0 = 0 := by
    have entry : s.poids.weight.getD 0 0 = 0 := wf.zero
    simp only [g, entry, charge_zero]
  have size : List.range s.poids.size = 0 :: (List.range s.poids.size).tail := by
    rw [wf.poidsSize, List.range_succ_eq_map]
    rfl
  rw [whole, size, List.map_cons, List.sum_cons, zero, Nat.zero_add, LocalOptimizer2.loss]
  congr 1
  apply List.map_congr_left
  intro v mem
  have pos : 0 < v := by
    rw [wf.poidsSize, List.range_succ_eq_map, List.tail_cons] at mem
    obtain ⟨y, _, rfl⟩ := List.mem_map.mp mem
    exact Nat.succ_pos y
  have here : s.poids.get v = s.poids.weight.getD v 0 := by
    rw [WeightVector.get, if_neg (by omega), Int.natAbs_natCast]
  have value : litTrue (assignment sol) (v : Int) = sol.getD v false := litTrue_natCast pos
  simp only [LocalOptimizer2.lossAt, g, charge, falsified,
    litTrue_neg (by omega : (v : Int) ≠ 0), value, here]
  generalize s.poids.weight.getD v 0 = w
  by_cases soft : 0 < w
  · cases sol.getD v false
    · simp only [soft, and_self, true_or, if_true, Bool.not_false]
      omega
    · simp [soft, show ¬ w < 0 by omega]
  · cases sol.getD v false
    · simp [soft]
    · by_cases neg : w < 0
      · simp only [soft, neg, and_self, or_true, if_true, if_false, Bool.not_true, Bool.not_false]
        omega
      · simp only [soft, neg, false_and, or_self, if_false, Bool.not_true, Bool.not_false, if_true]
        omega

theorem calculateCostAssign_eq {ws : List Int} (wf : Wf ws s) (room : s.cost + s.potential < 2 ^ 64)
    (sol : List Bool) : (⟨s.poids, s.cost⟩ : LocalOptimizer2).calculateCostAssign sol =
      s.weighed (assignment sol) := by
  have small : softSum (falsified (assignment sol)) s.poids ≤ s.potential := by
    refine (softSum_le _ _).trans ?_
    rw [EvalMaxSAT.potential, EvalMaxSAT.owed]
    omega
  rw [calculateCostAssign_loss, loss_eq wf, ← Nat.cast_add,
    u64_of_nat (by simp only; omega)]
  rfl

end Count

/-- The assignment exceeds a cardinality beyond the level that has weight. -/
def Exceeds (m : Assignment) (s : EvalMaxSAT K) : Prop :=
  ∃ o ∈ s.cards, o.level + 1 < trueCount m o.card.inputs

theorem fair_of_not_exceeds {φ : Assignment → Prop} {sol : List Bool} (sane : Sane s)
    (room : s.cost + s.potential < 2 ^ 64) (added : s.cardToAdd = [])
    (short : ¬ Exceeds (assignment sol) s) (h : Faithful d φ s) :
    Fair d (some ⟨s.poids, s.cost⟩) s.solver.clauses sol := by
  rintro l here models
  rw [← Option.some.inj here, calculateCostAssign_eq sane.wf room]
  have none : cardSum (falsified (assignment sol)) s.cards = 0 := by
    rw [cardSum, List.sum_eq_zero]
    intro x mem
    obtain ⟨o, inCards, rfl⟩ := List.mem_map.mp mem
    obtain ⟨c, cell⟩ := List.mem_iff_getElem?.mp inCards
    have few : trueCount (assignment sol) o.card.inputs ≤ o.level + 1 := by
      by_contra many
      exact short ⟨o, inCards, Nat.lt_of_not_le many⟩
    rw [CardObject.charge, falseCount_model (inputs_nonzero (sane.wf.cards c o cell).ready),
      Nat.sub_eq_zero_of_le few, Nat.mul_zero]
  have le := (h.sound _ models).2
  simp only [EvalMaxSAT.objective, EvalMaxSAT.owed, added, none, pendingSum, List.map_nil,
    List.sum_nil] at le
  rw [EvalMaxSAT.weighed]
  omega

end Bounds

section Solves

/-- What holds at every point of a solve. -/
structure Kept (d : Story) (s : EvalMaxSAT K) : Prop where
  faithful : Faithful d (Live d s) s
  stored : Stored d s
  budget : s.cost + s.potential ≤ d.total

theorem kept_step {f : Cnf} {e : Event StepKind (EvalMaxSAT K)} (small : d.total < 2 ^ 63)
    (fair : e.label = .bound → ExactBound e.before e.after ∨ Fair d lo f e.after.solution)
    (sub : f ⊆ e.before.solver.clauses) (kept : Kept d e.before) (ok : StepOk lo e) :
    Kept d e.after := by
  obtain ⟨sane, _, effect⟩ := ok
  have budget := kept.budget
  have word := kept.stored.word
  rw [maxWeight] at word
  refine ⟨faithful_effect sane (by omega) (by omega) kept.faithful effect,
    stored_effect kept.faithful fair sub kept.stored effect, ?_⟩
  have less := (effect_conserves sane effect (by omega)).2
  omega

theorem kept_chain {tr : Trace K} {f : Cnf} (small : d.total < 2 ^ 63) (path : Chain s tr t)
    (ok : ∀ e ∈ tr, StepOk lo e)
    (fair : ∀ e ∈ tr, e.label = .bound → ExactBound e.before e.after ∨ Fair d lo f e.after.solution)
    (sub : f ⊆ s.solver.clauses) (kept : Kept d s) :
    Kept d t ∧ ∀ e ∈ tr, Kept d e.before ∧ Kept d e.after := by
  obtain ⟨⟨final, _⟩, during⟩ := chain_invariant (fun u => Kept d u ∧ f ⊆ u.solver.clauses) path
    ⟨kept, sub⟩ fun e mem before =>
      ⟨kept_step small (fair e mem) before.2 before.1 (ok e mem),
        List.Subset.trans before.2 (stepped_of_solveStep (.inside (ok e mem))).clauses⟩
  exact ⟨final, fun e mem => ⟨(during e mem).1.1, (during e mem).2.1⟩⟩

theorem kept_started (h : Faithful d Every s)
    (budget : s.cost + s.potential ≤ d.total) : Kept d s.started where
  faithful := by
    refine faithful_mono (faithful_congr h rfl rfl rfl rfl rfl rfl) fun a _ => trivial
  stored := ⟨Nat.le_refl _, fun other => absurd rfl other⟩
  budget := budget

/-- What a caller may rely on after a solve that returned `b`. -/
structure Optimal (d : Story) (b : Bool) (s : EvalMaxSAT K) : Prop where
  refuted : b = false → ∀ a, ¬ Models a d.hard
  satisfied : b = true → Models (assignment s.solution) d.hard
  worth : b = true → d.softCost (assignment s.solution) = s.getCost
  least : b = true → ∀ a, Models a d.hard → s.getCost ≤ d.softCost a

theorem optimal_of_verdict {b : Bool} (small : d.total < 2 ^ 63) (kept : Kept d s)
    (verdict : Verdict b s) : Optimal d b s := by
  have budget := kept.budget
  have beaten : ∀ a, Models a d.hard → d.softCost a < s.solutionCost →
      ∃ m, Models m s.solver.clauses ∧ s.objective m = d.softCost a := fun a models beats =>
    have ⟨m, _, models', _, eq⟩ := kept.faithful.complete a models (Or.inr beats)
    ⟨m, models', eq⟩
  have unbeaten : (b = true → s.solutionCost ≠ maxWeight) →
      (∀ a, Models a d.hard → s.solutionCost ≤ d.softCost a) → Optimal d b s := by
    intro found least
    refine ⟨fun none a models => ?_, fun yes => (kept.stored.worth (found yes)).1, fun yes => ?_,
      fun _ => least⟩
    · have le := least a models
      have := d.softCost_le a
      rcases verdict with ⟨yes, _⟩ | ⟨eq, _⟩
      · rw [none] at yes; simp at yes
      · rw [none] at eq
        have top : s.solutionCost = maxWeight := by simpa using eq.symm
        rw [top, maxWeight] at le
        omega
    · obtain ⟨models, le⟩ := kept.stored.worth (found yes)
      exact Nat.le_antisymm le (least _ models)
  rcases verdict with ⟨_, met⟩ | ⟨eq, refuted⟩
  · refine unbeaten (fun _ top => ?_) fun a models => ?_
    · rw [top, maxWeight] at met
      omega
    · by_contra beats
      obtain ⟨m, _, eq⟩ := beaten a models (by omega)
      rw [EvalMaxSAT.objective] at eq
      omega
  · refine unbeaten (fun yes => by rw [yes] at eq; simpa using eq.symm) fun a models => ?_
    by_contra beats
    obtain ⟨m, models', _⟩ := beaten a models (by omega)
    exact refuted m models' (fun l mem => absurd mem (List.not_mem_nil))

theorem solve_kept {opening main : Trace K} {v : EvalMaxSAT K} {b : Bool} (small : d.total < 2 ^ 63)
    (sane : Sane s) (phases : Phases env s t v opening main b) (h : Faithful d Every s)
    (budget : s.cost + s.potential ≤ d.total)
    (short : ∀ e ∈ main, e.label = .bound →
      ExactBound e.before e.after ∨ ¬ Exceeds (assignment e.after.solution) t) :
    Optimal d b v.stopped ∧ ∀ e ∈ Phases.trace s v opening main, Kept d e.after := by
  have start := kept_started h budget
  obtain ⟨built, before⟩ := kept_chain (f := []) small phases.first phases.openingOk
    (fun e _ _ => Or.inr fun l here => by simp at here) (List.nil_subset _) start
  have after : Kept d v ∧ ∀ e ∈ main, Kept d e.before ∧ Kept d e.after := by
    refine kept_chain (f := t.solver.clauses) small phases.second phases.mainOk (fun e mem bound => ?_)
      (List.Subset.refl _) built
    have room := built.budget
    refine (short e mem bound).imp_right fun short => ?_
    exact fair_of_not_exceeds (chain_sane (sane_started sane) phases.first phases.openingOk)
      (by omega) (phases.built (List.ne_nil_of_mem mem)).2 short built.faithful
  have stopped : Kept d v.stopped :=
    ⟨faithful_congr after.1.faithful rfl rfl rfl rfl rfl rfl,
      ⟨after.1.stored.word, after.1.stored.worth⟩, after.1.budget⟩
  have optimal := optimal_of_verdict small after.1 phases.verdict
  refine ⟨⟨optimal.refuted, optimal.satisfied, optimal.worth, optimal.least⟩, fun e mem => ?_⟩
  rcases List.mem_cons.mp mem with rfl | mem
  · exact start
  · rcases List.mem_append.mp mem with mem | mem
    · exact (before e mem).2
    · rcases List.mem_append.mp mem with mem | mem
      · exact (after.2 e mem).2
      · rw [List.mem_singleton.mp mem]
        exact stopped

end Solves
end EvalMaxSat
