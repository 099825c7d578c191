import EvalMaxSat.FormulaCalls
import EvalMaxSat.SafeHardening

/-!
A solve ends, and the cores it finds are paid for by the weights, as long as no weight overflows.
-/
namespace EvalMaxSat
open Literals OrderedContainers EvalMaxSAT StepProgram

variable {K : Type} {env : Env K} {core : K} {s t : EvalMaxSAT K} {d : Story}
  {path : List (EvalMaxSAT K)}

section Ends

/-- The number of cores that became cardinalities. -/
def coreCount (tr : Trace K) : Nat := tr.countP fun e => decide (e.label = .core)

/-- Each core takes some weight. -/
theorem cores_paid {tr : Trace K} (steps : Chain s tr t) (ok : ∀ e ∈ tr, SolveStep e) :
    coreCount tr + t.potential ≤ s.potential := by
  induction tr generalizing s with
  | nil =>
    cases steps
    exact Nat.le_of_eq (Nat.zero_add _)
  | cons e tr ih =>
    obtain ⟨rfl, rest⟩ := steps
    have later := ih rest fun e mem => ok e (by simp [mem])
    have step := ok e (by simp)
    have less := (stepped_of_solveStep step).potential
    simp only [coreCount, List.countP_cons] at later ⊢
    by_cases found : e.label = .core
    · have paid : e.after.potential < e.before.potential := by
        obtain ⟨label, before, after⟩ := e
        cases found
        cases step with
        | inside okE =>
          obtain ⟨_, _, _, p, pos, rewrites, _⟩ := okE
          have moved := rewrites.sim.potential
          dsimp only at moved ⊢
          omega
      simp only [found, decide_true, if_true]
      omega
    · simp only [found, decide_false, Bool.false_eq_true, if_false]
      omega

theorem history_potential (sound : env.Sound) (h : History env core fittingCall d path s) :
    s.potential ≤ d.total := by
  induction h with
  | fresh => simp [potential_eq, fresh, WeightVector.size]
  | update history allowed applied ih =>
    have between := (history_between sound history).1
    have more := (changed_of_apply between allowed.1 allowed.2 applied).1.potential
    rw [Story.total_record]
    omega
  | solve history _ ends ih =>
    have between := (history_between sound history).1
    obtain ⟨_, steps, ok, _⟩ := steps_of_ends sound between.sane between.idle ends
    have := cores_paid steps ok
    omega

/-- Where no weight overflows a solve ends, with at most as many cores as there is weight. -/
theorem solve_ends (sound : env.Sound) (h : History env core fittingCall d path s) :
    ∃ tr b t, (solve env).Ends s tr (.done b) t ∧ coreCount tr ≤ d.total := by
  have between := (history_between sound h).1
  have potential := history_potential sound h
  obtain ⟨t, v, opening, main, b, _, ends⟩ := solve_phases sound between.sane
  obtain ⟨_, steps, ok, _⟩ := steps_of_ends sound between.sane between.idle ends
  have := cores_paid steps ok
  exact ⟨_, b, _, ends, by omega⟩

def coresScript : List Call :=
  [.update .newVar, .update .newVar, .update .newVar, .update (.addClause [-1, -2] none),
    .update (.addClause [-2, -3] none), .update (.addClause [1] (some 2)),
    .update (.addClause [2] (some 3)), .update (.addClause [3] (some 4))]

theorem solve_ends_small : ∃ s : EvalMaxSAT Unit, ∃ tr b t,
    (solve referenceBackEnd).Ends s tr (.done b) t ∧ coreCount tr ≤ 9 := by
  obtain ⟨d, path, s, history, facts⟩ := history_of_replay referenceBackEnd () fittingCall 60
    coresScript (fun r => decide (r.1.total = 9)) (by decide +kernel)
  have total : d.total = 9 := of_decide_eq_true facts
  have ends := solve_ends reference_sound history
  rw [total] at ends
  exact ⟨s, ends⟩

end Ends

section Never
variable {w : Nat} {lit : Int} {lits : OSet Int}

/-- The last bucket is heavy and holds a literal that has no weight. -/
structure Stale (w : Nat) (lits : OSet Int) (lit : Int) (s : EvalMaxSAT K) : Prop where
  size : s.mapWeight2Assum.size = 2
  last : s.mapWeight2Assum.last? = some (w, lits)
  weight : s.weight lit = 0

theorem stale_unit (stale : Stale w lits lit s) : Stale w lits lit (s.addHardClause [lit]) := by
  have same : s.addHardClause [lit] = { s with solver := s.solver.addClause [lit] } := by
    simp only [addHardClause, clearUnit, stale.weight, if_true]
  rw [same]
  exact ⟨stale.size, stale.last, stale.weight⟩

theorem wp_harden_stale {n : Nat} {assum : OSet Int} (stale : Stale w lits lit s)
    (only : lits.elems = [lit]) : Wp (fun _ => True) (hardenLits lits.elems n assum)
      (fun _ t => Stale w lits lit t) s := by
  rw [only]
  apply wp_bind (k := fun c => Prog.fold _ c [])
  apply wp_bind
  exact wp_act trivial (wp_pure (wp_pure (stale_unit stale)))

/-- A literal without weight never leaves its bucket, and is hardened for ever. -/
theorem harden_never {assum : OSet Int} (mode : s.isIncremental = false) (stale : Stale w lits lit s)
    (only : lits.elems = [lit]) (heavy : s.maxCostLit ≤ w) : Never (harden assum) s := by
  apply never_read
  apply never_else (by simp [mode])
  apply never_else (by rw [stale.size]; decide)
  apply never_else (by rw [stale.size]; exact fun one => absurd one.1 (by decide))
  refine loop_never (fun _ t => Stale w lits lit t) ?_ stale
  rintro ⟨n, r⟩ t inv
  apply wp_bind_read
  simp only [inv.last]
  refine wp_ite (fun light => absurd light (Nat.not_lt_of_le heavy)) (fun _ => ?_)
  apply wp_bind
  apply wp_mono (wp_harden_stale inv only)
  rintro ⟨k, q⟩ u next
  apply wp_bind_read
  refine wp_ite (fun one => absurd (next.size.symm.trans one) (by decide)) (fun _ => ?_)
  simp only [next.last]
  rw [if_neg (by rw [only]; simp)]
  exact wp_pure ⟨_, rfl, next⟩

/-- A weight that overflows, so that the clause against the literal finds it in no bucket. -/
def staleScript : List Call :=
  [.update .newVar, .update (.addClause [1] (some (2 ^ 62))),
    .update (.addClause [1] (some (2 ^ 62))), .update (.addClause [-1] none)]

def staleTest (s : EvalMaxSAT Unit) : Bool :=
  decide (s.isIncremental = false ∧ s.mapWeight2Assum.size = 2 ∧
    s.mapWeight2Assum.last?.map (fun e => (e.1, e.2.elems)) = some (2 ^ 63, [-1]) ∧
    s.weight (-1) = 0 ∧ s.maxCostLit ≤ 2 ^ 63 ∧ s.cost < s.solutionCost)

def opened (s : EvalMaxSAT K) : EvalMaxSAT K :=
  (addPendingCards 0 OSet.empty (relaxPending 0 OSet.empty s.started).2).2

theorem solve_never {env : Env Unit} {s t u : EvalMaxSAT Unit} {tr tr' : Trace Unit} {a : Bool}
    {b : Nat}
    (exact_ : (adapt_am1_exact env).Ends (opened s) tr (.done a) t)
    (fast : (adapt_am1_FastHeuristicV7 env).Ends t tr' (.done b) u) (test : staleTest u = true) :
    Never (solve env) s := by
  obtain ⟨mode, size, last, weight, heavy, below⟩ := of_decide_eq_true test
  obtain ⟨⟨w, lits⟩, here, same⟩ := Option.map_eq_some_iff.mp last
  obtain ⟨rfl, only⟩ := Prod.mk.inj same
  apply never_after (Prog.ends_act _ _ _)
  apply never_first
  apply never_after (Prog.ends_act _ _ _)
  apply never_after (Prog.ends_act _ _ _)
  apply never_after exact_
  apply never_after fast
  apply never_read
  apply never_else (Nat.not_le_of_lt below)
  apply never_else (by rw [size]; decide)
  exact never_first (harden_never mode ⟨size, here, weight⟩ only heavy)

/-- With a weight that overflows the very first solve never ends. -/
theorem overflow_never_solves : ¬ ∀ (env : Env Unit) (d : Story) (path : List (EvalMaxSAT Unit))
    (s : EvalMaxSAT Unit), env.Sound → History env () buildingCall d path s →
    ∃ tr b t, (solve env).Ends s tr (.done b) t ∧ coreCount tr ≤ d.total := by
  intro claim
  obtain ⟨d, path, s, history, test⟩ := history_of_replay referenceBackEnd () buildingCall 1
    staleScript (fun r => endTest (adapt_am1_exact referenceBackEnd) 60 (fun _ _ t =>
      endTest (adapt_am1_FastHeuristicV7 referenceBackEnd) 60 (fun _ _ u => staleTest u) t)
        (opened r.2.2)) (by decide +kernel)
  obtain ⟨_, _, t, exact_, rest⟩ := ends_of_endTest test
  obtain ⟨_, _, u, fast, stale⟩ := ends_of_endTest rest
  obtain ⟨tr, b, v, ends, _⟩ := claim _ d path s reference_sound history
  exact solve_never exact_ fast stale tr _ v ends

end Never
end EvalMaxSat
