import EvalMaxSat.Replays

/-!
The weight index and the sum of all weights, in every state that a history of calls goes
through.
-/
namespace EvalMaxSat
open Literals OrderedContainers EvalMaxSAT StepProgram

variable {K : Type} {env : Env K} {core : K} {s t u : EvalMaxSAT K} {d : Story}
  {path : List (EvalMaxSAT K)}

section Index

/-- Every soft literal is in one bucket, and never together with its negation. -/
structure Filed (s : EvalMaxSAT K) : Prop where
  indexed : ∀ lit (w : Nat), lit ≠ 0 → (InBucket s.mapWeight2Assum w lit ↔ 0 < w ∧ s.weight lit = w)
  one : ∀ lit, 0 < s.weight lit → ∃! w, InBucket s.mapWeight2Assum w lit
  alone : ∀ lit w v, lit ≠ 0 → InBucket s.mapWeight2Assum w lit → ¬ InBucket s.mapWeight2Assum v (-lit)

theorem filed_of_wf {ws : List Int} (wf : Wf ws s) : Filed s where
  indexed := fun lit w _ => wf.indexed lit w
  one := by
    intro lit soft
    refine ⟨(s.weight lit).toNat, (wf.indexed lit _).mpr (by omega), fun w here => ?_⟩
    have := ((wf.indexed lit w).mp here).2
    omega
  alone := by
    intro lit w v _ here there
    have positive := (wf.indexed lit w).mp here
    have negative := (wf.indexed (-lit) v).mp there
    have opposite := wf.weight_neg lit
    omega

/-- The index agrees with the weights after every call and every step of a solve, and every
solve that is begun comes to its end. -/
theorem index_consistent (sound : env.Sound) (h : History env core anyCall d path s)
    (small : d.total < 2 ^ 63) : (∀ t ∈ path, Filed t) ∧
      ∃ tr b t, (solve env).Ends s tr (.done b) t ∧ ∀ e ∈ tr, Filed e.after := by
  obtain ⟨between, sane⟩ := history_between sound (history_fits sound h small).1
  refine ⟨fun t mem => filed_of_wf (sane t mem).wf, ?_⟩
  obtain ⟨t, v, opening, main, b, _, ends⟩ := solve_phases sound between.sane
  exact ⟨_, b, _, ends, fun e mem => filed_of_wf ((between_of_ends sound between ends).2 e mem).wf⟩

/-- Two soft variables of which one must be false, and a merge of opposite weights. -/
def smallScript : List Call :=
  [.update .newVar, .update .newVar, .update (.addClause [1] (some 2)),
    .update (.addClause [2] (some 3)), .update (.addWeight (-1) 1),
    .update (.addClause [-1, -2] none), .solve]

theorem smallScript_history : ∃ d path s, History referenceBackEnd () positiveCall d path s ∧
    decide (d.total = 6 ∧ 15 < path.length) = true :=
  history_of_replay _ _ _ 60 smallScript
    (fun r => decide (r.1.total = 6 ∧ 15 < r.2.1.length)) (by decide +kernel)

theorem index_consistent_small : ∃ path : List (EvalMaxSAT Unit), 15 < path.length ∧
    ∀ t ∈ path, Filed t := by
  obtain ⟨d, path, s, history, facts⟩ := smallScript_history
  obtain ⟨total, long⟩ := of_decide_eq_true facts
  exact ⟨path, long, (index_consistent reference_sound
    (history_mono (fun _ _ => any_of_positive) history) (by omega)).1⟩

end Index

section Conservation
variable {lo : Option LocalOptimizer2}

theorem effect_conserves {kind : StepKind} (sane : Sane s) (effect : Effect lo kind s t)
    (room : s.cost + s.potential < 2 ^ 64) :
    (kind ≠ .harden → t.cost + t.potential = s.cost + s.potential) ∧
      t.cost + t.potential ≤ s.cost + s.potential := by
  have same : t.cost + t.potential = s.cost + s.potential →
      (kind ≠ .harden → t.cost + t.potential = s.cost + s.potential) ∧
      t.cost + t.potential ≤ s.cost + s.potential := fun eq => ⟨fun _ => eq, Nat.le_of_eq eq⟩
  have paid : ∀ d, Rewrites d s t → t.cost + t.potential = s.cost + s.potential := by
    intro d rewrites
    have moved := rewrites.sim.potential
    have cost : t.cost = s.cost + d := by
      rw [rewrites.cost, ← Nat.cast_add, u64_of_nat (by omega)]
    omega
  cases kind with
  | start => exact effect.elim
  | stop => exact effect.elim
  | query => obtain ⟨core, last, rfl⟩ := effect; exact same rfl
  | dropBucket => obtain ⟨m, rfl⟩ := effect; exact same rfl
  | bound => obtain ⟨c, sol, rfl, _⟩ := effect; exact same rfl
  | harden =>
    obtain ⟨_, lit, soft, _, unit⟩ := effect
    obtain ⟨passed, cost⟩ := passed_harden sane soft unit
    have less := passed.potential
    exact ⟨fun other => absurd rfl other, by omega⟩
  | relax => exact same (paid 0 effect.1)
  | card => exact same (paid 0 effect.1)
  | unit => obtain ⟨p, rewrites, _⟩ := effect; exact same (paid p rewrites)
  | core => obtain ⟨_, p, _, rewrites, _⟩ := effect; exact same (paid p rewrites)
  | amo => obtain ⟨p, _, rewrites, _⟩ := effect; exact same (paid p rewrites)
  | clique clause => exact same (by rw [show t = s from effect.1])
  | assums minWeight assum => exact same (by rw [show t = s from effect.1])
  | report c => exact same (by rw [show t = s from effect.1])

theorem softSum_le (γ : Gauge) (v : WeightVector) : softSum γ v ≤ softSum everyLit v := by
  apply Finset.sum_le_sum
  intro i _
  rw [charge_every, charge]
  split <;> split <;> omega

theorem product_le {ws : List Int} (wf : Wf ws s) {c : Clause} {w : Nat} (distinct : c.Nodup)
    (soft : ∀ l ∈ c, 0 < s.weight l) (heavy : ∀ l ∈ c, (w : Int) ≤ s.weight l) :
    w * c.length ≤ softSum everyLit s.poids := by
  have apart : (c.map Int.natAbs).Nodup := by
    refine (List.nodup_map_iff_inj_on distinct).mpr fun a inA b inB same => ?_
    rcases Int.natAbs_eq_natAbs_iff.mp same with eq | opposite
    · exact eq
    · have := wf.weight_neg b
      have first := soft a inA
      have := soft b inB
      rw [opposite] at first
      omega
  have entry : ∀ l, (s.poids.weight.getD l.natAbs 0).natAbs = (s.weight l).natAbs := by
    intro l
    rw [WeightVector.entry_eq wf.poids_bounded l]
    simp only [WeightVector.signed, EvalMaxSAT.weight]
    split <;> omega
  calc w * c.length = ∑ _v ∈ (c.map Int.natAbs).toFinset, w := by
        rw [Finset.sum_const, List.toFinset_card_of_nodup apart, List.length_map, smul_eq_mul,
          Nat.mul_comm]
    _ ≤ ∑ v ∈ (c.map Int.natAbs).toFinset, charge everyLit v (s.poids.weight.getD v 0) := by
        apply Finset.sum_le_sum
        intro v mem
        obtain ⟨l, inC, rfl⟩ := List.mem_map.mp (List.mem_toFinset.mp mem)
        have := heavy l inC
        rw [charge_every, entry]
        omega
    _ ≤ softSum everyLit s.poids := by
        refine Finset.sum_le_sum_of_subset fun v mem => ?_
        obtain ⟨l, inC, rfl⟩ := List.mem_map.mp (List.mem_toFinset.mp mem)
        have := soft l inC
        have := (wf.weighted_inside (by omega : s.weight l ≠ 0)).2
        have := wf.poidsSize
        exact Finset.mem_range.mpr (by omega)

/-- What is spent and what may still be spent stay within the total `T`: the cost with all that is
owed, every weight, every value of the objective and every product of a weight with a number of
literals that have it. -/
structure Budgeted (T : Nat) (s : EvalMaxSAT K) : Prop where
  all : s.cost + s.potential ≤ T
  weights : ∀ v, (s.poids.weight.getD v 0).natAbs ≤ T
  sums : ∀ γ, s.cost + softSum γ s.poids ≤ T
  products : ∀ (c : Clause) (w : Nat), c.Nodup → (∀ l ∈ c, 0 < s.weight l) →
    (∀ l ∈ c, (w : Int) ≤ s.weight l) → s.cost + w * c.length ≤ T

theorem budgeted_of_potential {T : Nat} (sane : Sane s) (all : s.cost + s.potential ≤ T) :
    Budgeted T s where
  all := all
  weights := by
    intro v
    have := WeightVector.entry_le_softSum s.poids v
    simp only [EvalMaxSAT.potential, EvalMaxSAT.owed] at all
    omega
  sums := by
    intro γ
    have := softSum_le γ s.poids
    simp only [EvalMaxSAT.potential, EvalMaxSAT.owed] at all
    omega
  products := by
    intro c w distinct soft heavy
    have := product_le sane.wf distinct soft heavy
    simp only [EvalMaxSAT.potential, EvalMaxSAT.owed] at all
    omega

theorem potential_eq (s : EvalMaxSAT K) : s.potential =
    (∑ v ∈ Finset.range s.poids.size, (s.poids.weight.getD v 0).natAbs) +
    (s.cardToAdd.map fun c => (c.1.length - 1) * c.2).sum +
    (s.cards.map fun o => (o.card.inputs.length - 1 - o.level) * o.initialWeight).sum := by
  simp only [EvalMaxSAT.potential, EvalMaxSAT.owed, softSum, pendingSum, cardSum, charge_every,
    falseCount_every]
  congr 2
  · congr 1
    exact List.map_congr_left fun c _ => Nat.mul_comm _ _
  · refine List.map_congr_left fun o _ => ?_
    rw [CardObject.charge, falseCount_every, Nat.mul_comm]
    congr 1
    omega

theorem solve_conserves {tr : Trace K} {o : Outcome Bool} {T : Nat} (sound : env.Sound)
    (between : Between d s) (ends : (solve env).Ends s tr o t) (all : s.cost + s.potential ≤ T)
    (small : T < 2 ^ 63) : t.cost + t.potential ≤ T ∧ ∀ e ∈ tr,
      (e.label ≠ .harden → e.after.cost + e.after.potential = e.before.cost + e.before.potential) ∧
      e.after.cost + e.after.potential ≤ e.before.cost + e.before.potential ∧
      e.after.cost + e.after.potential ≤ T := by
  obtain ⟨_, steps, ok, _⟩ := steps_of_ends sound between.sane between.idle ends
  have moves : ∀ e ∈ tr, e.before.cost + e.before.potential ≤ T →
      (e.label ≠ .harden → e.after.cost + e.after.potential = e.before.cost + e.before.potential) ∧
      e.after.cost + e.after.potential ≤ e.before.cost + e.before.potential := by
    intro e mem before
    cases ok e mem with
    | enter _ _ => exact ⟨fun _ => rfl, Nat.le_refl _⟩
    | leave _ => exact ⟨fun _ => rfl, Nat.le_refl _⟩
    | inside okE => exact effect_conserves okE.1 okE.2.2 (by omega)
  obtain ⟨final, during⟩ := chain_invariant (fun u => u.cost + u.potential ≤ T) steps all
    fun e mem before => (moves e mem before).2.trans before
  refine ⟨final, fun e mem => ?_⟩
  obtain ⟨exact_, less⟩ := moves e mem (during e mem).1
  exact ⟨exact_, less, (during e mem).2⟩

theorem history_conserves (sound : env.Sound) (h : History env core positiveCall d path s)
    (small : d.total < 2 ^ 63) : s.cost + s.potential ≤ d.total ∧
      ∀ t ∈ path, t.cost + t.potential ≤ d.total := by
  induction h with
  | fresh =>
    have none : (fresh core).cost + (fresh core).potential = 0 := by
      simp [potential_eq, fresh, WeightVector.size]
    simp [none]
  | @update d path s u x t history allowed applied ih =>
    rw [Story.total_record] at small ⊢
    obtain ⟨now, before⟩ := ih (by omega)
    have fitting := history_fits sound (history_mono (fun _ _ => any_of_positive) history) (by omega)
    have between := (history_between sound fitting.1).1
    obtain ⟨changed, _⟩ := changed_of_apply between allowed.1
      (fits_of_total between fitting.2.1 small) applied
    have more := changed.spent allowed.2 (by omega)
    refine ⟨by omega, fun v mem => ?_⟩
    rcases List.mem_append.mp mem with old | new
    · have := before v old; omega
    · rw [List.mem_singleton.mp new]; omega
  | @solve d path s tr b t history allowed ends ih =>
    obtain ⟨now, before⟩ := ih small
    have fitting := history_fits sound (history_mono (fun _ _ => any_of_positive) history) small
    have between := (history_between sound fitting.1).1
    obtain ⟨final, during⟩ := solve_conserves sound between ends now small
    refine ⟨final, fun v mem => ?_⟩
    rcases List.mem_append.mp mem with old | new
    · exact before v old
    · obtain ⟨e, inTrace, rfl⟩ := List.mem_map.mp new
      exact (during e inTrace).2.2

theorem weight_conserved (sound : env.Sound) (h : History env core positiveCall d path s)
    (small : d.total < 2 ^ 63) :
    (∀ t ∈ path, Budgeted d.total t) ∧
    ∃ tr b t, (solve env).Ends s tr (.done b) t ∧ ∀ e ∈ tr, Budgeted d.total e.after ∧
      (e.label ≠ .harden → e.after.cost + e.after.potential = e.before.cost + e.before.potential) ∧
      e.after.cost + e.after.potential ≤ e.before.cost + e.before.potential := by
  obtain ⟨fitting, _⟩ := history_fits sound (history_mono (fun _ _ => any_of_positive) h) small
  obtain ⟨between, sane⟩ := history_between sound fitting
  obtain ⟨now, before⟩ := history_conserves sound h small
  refine ⟨fun t mem => budgeted_of_potential (sane t mem) (before t mem), ?_⟩
  obtain ⟨t, v, opening, main, b, _, ends⟩ := solve_phases sound between.sane
  refine ⟨_, b, _, ends, fun e mem => ?_⟩
  obtain ⟨same, less, within⟩ := (solve_conserves sound between ends now small).2 e mem
  exact ⟨budgeted_of_potential ((between_of_ends sound between ends).2 e mem) within, same, less⟩

theorem weight_conserved_small : ∃ path : List (EvalMaxSAT Unit), 15 < path.length ∧
    ∀ t ∈ path, Budgeted 6 t := by
  obtain ⟨d, path, s, history, facts⟩ := smallScript_history
  obtain ⟨total, long⟩ := of_decide_eq_true facts
  have all := (weight_conserved reference_sound history (by omega)).1
  rw [total] at all
  exact ⟨path, long, all⟩

end Conservation
end EvalMaxSat
