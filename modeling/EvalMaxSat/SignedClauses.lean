import EvalMaxSat.Replays

/-!
What a soft clause of any sign does to the objective, seen from the variables that were there
before.
-/
namespace EvalMaxSat
open Literals OrderedContainers EvalMaxSAT

variable {K : Type} {env : Env K} {core : K} {s t : EvalMaxSAT K} {d : Story}
  {path : List (EvalMaxSAT K)} {clause : Clause} {m : Assignment}

section Loading

def loadingCall (d : Story) (s : EvalMaxSAT K) : Call → Prop
  | .update u => d.Admits u ∧ u.Fits s
  | .solve => False

instance (d : Story) (s : EvalMaxSAT K) : (c : Call) → Decidable (loadingCall d s c)
  | .update u => inferInstanceAs (Decidable (d.Admits u ∧ u.Fits s))
  | .solve => inferInstanceAs (Decidable False)

/-- What no call but `solve` touches. -/
def EvalMaxSAT.outcome (s : EvalMaxSAT K) := (s.cardToAdd, s.solution, s.solutionCost)

theorem outcome_of_besides (same : t.besides = s.besides) : t.outcome = s.outcome := by
  simp only [EvalMaxSAT.besides, EvalMaxSAT.aside, Prod.mk.injEq] at same
  simp only [EvalMaxSAT.outcome, same]

theorem outcome_addSoftClause (between : Between d s) {w : Int} (literals : d.Over clause)
    (nonzero : w ≠ 0) (range : w.natAbs < 2 ^ 63)
    (fits : ∀ l, clause = [l] → (s.weight l + w).natAbs < 2 ^ 63) :
    (s.addSoftClause clause w).2.outcome = s.outcome := by
  have sane := between.sane
  obtain ⟨within, plain⟩ := between_within between literals
  rcases Int.lt_or_gt_of_ne nonzero with neg | pos
  · match clause with
    | [] => rfl
    | [lit] =>
      obtain ⟨nonzero, bound⟩ := within lit (by simp)
      have opposite := sane.wf.weight_neg lit
      have fit := fits lit rfl
      rw [addSoftClause_unit, addWeight_eq sane bound range, if_pos neg]
      obtain ⟨_, spec⟩ := addPositiveWeight_soft (l := -lit) (w := w.natAbs) sane (by omega)
        (by rw [Int.natAbs_neg]; exact bound) (by rw [Int.natAbs_neg]; exact plain lit (by simp))
        (by omega) range (by omega)
      exact outcome_of_besides spec.besides
    | a :: b :: rest =>
      have same : w = -(w.natAbs : Int) := by omega
      rw [same, addSoftClause_negated (by simp) within (by omega) range]
      rfl
  · have same : w = (w.natAbs : Int) := by omega
    obtain ⟨_, spec⟩ := addSoftClause_soft (w := w.natAbs) sane within plain (by omega) range
      (fun l eq => by have := fits l eq; omega)
    rw [same]
    exact outcome_of_besides spec.besides

theorem outcome_apply (between : Between d s) {u : Update} {x : Int} (admits : d.Admits u)
    (fits : u.Fits s) (applied : u.apply s = some (x, t)) : t.outcome = s.outcome := by
  cases u with
  | newVar =>
    rw [Update.apply, newVar_eq] at applied
    simp only [Option.some.injEq, Prod.mk.injEq] at applied
    rw [← applied.2]
    rfl
  | newSoftVar value w =>
    rw [Update.apply] at applied
    have same : (s.newSoftVar value w).2 = t := congrArg Prod.snd (Option.some.inj applied)
    rw [← same]
    rfl
  | addClause clause w =>
    cases w with
    | none =>
      obtain ⟨within, _⟩ := between_within between (show d.Over clause from admits)
      rw [Update.apply, EvalMaxSAT.addClause] at applied
      simp only [Option.some.injEq, Prod.mk.injEq] at applied
      rw [← applied.2]
      by_cases unit : clause.length = 1
      · obtain ⟨lit, rfl⟩ := List.length_eq_one_iff.mp unit
        obtain ⟨nonzero, bound⟩ := within lit (by simp)
        exact outcome_of_besides (addUnit_spec between.sane.wf nonzero bound).besides
      · rw [addHardClause_grow within unit]
        rfl
    | some w =>
      obtain ⟨literals, nonzero, range⟩ := admits
      have added := addClause_some nonzero applied
      have same := outcome_addSoftClause between literals nonzero range (by rintro l rfl; exact fits)
      rwa [added] at same
  | addWeight lit w =>
    obtain ⟨literals, nonzero, range⟩ := admits
    have same := outcome_addSoftClause between literals nonzero range (by
      intro l eq
      rw [← List.singleton_inj.mp eq]
      exact fits)
    rw [addSoftClause_unit] at same
    rw [Update.apply] at applied
    simp only [Option.some.injEq, Prod.mk.injEq] at applied
    rw [← applied.2]
    exact same
  | unactivateDelayStrategy | unactivateMultiSolveStrategy | unactivateUBStrategy | disableOptimize
  | setIncremental value | setNInputVars n =>
    rw [Update.apply] at applied
    simp only [Option.some.injEq, Prod.mk.injEq] at applied
    rw [← applied.2]
    rfl

structure Loaded (s : EvalMaxSAT K) : Prop where
  cards : s.cards = []
  pending : s.cardToAdd = []
  first : s.solutionCost = maxWeight

theorem loaded_of_changed {pos : Prop} {load : Nat} (loaded : Loaded s) (changed : Changed pos load s t)
    (same : t.outcome = s.outcome) : Loaded t := by
  have length := changed.climbs.length
  simp only [EvalMaxSAT.outcome, Prod.mk.injEq] at same
  rw [loaded.cards, List.length_nil] at length
  exact ⟨List.length_eq_zero_iff.mp (by omega), by rw [same.1]; exact loaded.pending,
    by rw [same.2.2]; exact loaded.first⟩

theorem history_loaded (h : History env core loadingCall d path s) : Between d s ∧ Loaded s := by
  induction h with
  | fresh => exact ⟨between_fresh core, rfl, rfl, rfl⟩
  | update _ allowed applied ih =>
    obtain ⟨between, loaded⟩ := ih
    exact ⟨between_of_apply between allowed.1 allowed.2 applied,
      loaded_of_changed loaded (changed_of_apply between allowed.1 allowed.2 applied).1
        (outcome_apply between allowed.1 allowed.2 applied)⟩
  | solve _ never _ _ => exact never.elim

/-- The cost with the weights of the soft literals that the assignment falsifies. -/
def EvalMaxSAT.weighed (s : EvalMaxSAT K) (m : Assignment) : Nat :=
  s.cost + softSum (falsified m) s.poids

theorem objective_loaded (loaded : Loaded s) (m : Assignment) : s.objective m = s.weighed m := by
  simp [EvalMaxSAT.objective, EvalMaxSAT.weighed, EvalMaxSAT.owed, loaded.cards, loaded.pending,
    pendingSum, cardSum]

end Loading

section Law

/-- From `s` to `t` the objective changes by `f`, up to a constant, and no model is lost. -/
def ChangesBy (f : Assignment → Int) (s t : EvalMaxSAT K) : Prop :=
  ∃ c : Int, ∀ m, Models m s.solver.clauses → ∃ v,
    LeastOver (· ≤ s.solver.nVar) t.solver.clauses t.weighed m v ∧ (v : Int) = s.weighed m + f m + c

/-- The models of `f` make all literals of the clause true, or they make some of them true, or
they make none of them true. -/
def Uniform (f : Cnf) (clause : Clause) : Prop :=
  ∀ m k, Models m f → Models k f →
    (Holds m clause ↔ Holds k clause) ∧ (AllTrue m clause ↔ AllTrue k clause)

theorem leastOver_adds {w e : Nat} (wf : Wf ws s) (before : Loaded s) (after : Loaded t)
    (adds : Adds clause w e s t) (cost : t.cost = s.cost + e) (within : Within s.solver.nVar clause)
    (models : Models m s.solver.clauses) :
    LeastOver (· ≤ s.solver.nVar) t.solver.clauses t.weighed m
      (s.weighed m + penalty clause w m) := by
  have here : s.cost + s.owed (falsified m) = s.weighed m := objective_loaded before m
  constructor
  · obtain ⟨k, agree, models', _, owed⟩ := adds.forward m models
      (by intro o mem; rw [before.cards] at mem; exact absurd mem (List.not_mem_nil))
    refine ⟨k, agree, models', ?_⟩
    have there : t.cost + t.owed (falsified k) = t.weighed k := objective_loaded after k
    omega
  · rintro x ⟨k, agree, models', rfl⟩
    have there : t.cost + t.owed (falsified k) = t.weighed k := objective_loaded after k
    have least := adds.backward k models'
    rw [owed_agree wf agree, penalty_agree agree within] at least
    omega

/-- The new variable of a negated clause implies all the literals, so that it costs its weight
to have one of them false. -/
theorem leastOver_negated {w : Nat} (wf : Wf ws s) (before : Loaded s) (pos : 0 < w)
    (range : w < 2 ^ 63) (within : Within s.solver.nVar clause) (models : Models m s.solver.clauses)
    [Decidable (AllTrue m clause)] :
    LeastOver (· ≤ s.solver.nVar) (s.negated clause w).solver.clauses (s.negated clause w).weighed m
      (s.weighed m + if AllTrue m clause then 0 else w) := by
  obtain ⟨_, _, owed, _⟩ := negated_spec wf within pos range
  have after : Loaded (s.negated clause w) := ⟨before.cards, before.pending, before.first⟩
  have value : ∀ k, (s.negated clause w).weighed k =
      s.cost + s.owed (falsified k) + if k (s.solver.nVar + 1) then 0 else w := by
    intro k
    rw [← objective_loaded after, EvalMaxSAT.objective, owed, ← Nat.add_assoc]
    rfl
  have here : s.cost + s.owed (falsified m) = s.weighed m := objective_loaded before m
  have pair : ∀ (k : Assignment) (l : Int), Holds k [-((s.solver.nVar + 1 : Nat) : Int), l] ↔
      (k (s.solver.nVar + 1) = true → litTrue k l = true) := by
    intro k l
    have neg : litTrue k (-((s.solver.nVar + 1 : Nat) : Int)) = !k (s.solver.nVar + 1) := by
      rw [litTrue_neg (by omega), litTrue_natCast (Nat.succ_pos _)]
    simp only [Holds, List.mem_cons, List.not_mem_nil, or_false, exists_eq_or_imp, exists_eq_left, neg]
    cases k (s.solver.nVar + 1) <;> simp
  have clauses : ∀ k, Models k (s.negated clause w).solver.clauses ↔
      Models k s.solver.clauses ∧ (k (s.solver.nVar + 1) = true → AllTrue k clause) := by
    intro k
    change Models k (s.solver.clauses ++ _) ↔ _
    rw [models_append]
    refine and_congr_right fun _ => ?_
    constructor
    · intro all on l mem
      exact (pair k l).mp (all _ (List.mem_map_of_mem mem)) on
    · intro all c mem
      obtain ⟨l, inClause, rfl⟩ := List.mem_map.mp mem
      exact (pair k l).mpr fun on => all on l inClause
  have allTrue : ∀ {k}, AgreeUpTo s.solver.nVar m k → (AllTrue k clause ↔ AllTrue m clause) := by
    intro k agree
    refine forall₂_congr fun l mem => ?_
    rw [litTrue_agree agree (within l mem).2]
  constructor
  · have agree : AgreeUpTo s.solver.nVar m
        (assign m (s.solver.nVar + 1) (decide (AllTrue m clause))) := assign_agree (Nat.lt_succ_self _)
    refine ⟨_, agree, (clauses _).mpr ⟨(models_agree agree wf.within).mpr models, ?_⟩, ?_⟩
    · rw [assign_self, allTrue agree]
      exact of_decide_eq_true
    · rw [value, owed_agree wf agree, assign_self]
      simp only [decide_eq_true_eq]
      omega
  · rintro x ⟨k, agree, models', rfl⟩
    have implied := ((clauses k).mp models').2
    rw [allTrue agree] at implied
    rw [value, owed_agree wf agree]
    by_cases on : k (s.solver.nVar + 1) = true
    · rw [if_pos on, if_pos (implied on)]
      omega
    · rw [if_neg on]
      split <;> omega

/-- What the objective pays for a falsified clause. -/
def toll (clause : Clause) (w : Int) (m : Assignment) : Int := if Holds m clause then 0 else w

/-- Neither the weight of a unit clause nor what goes to the cost overflows. -/
def Roomy (s : EvalMaxSAT K) : Clause → Int → Prop
  | [lit], w => (s.weight lit + w).natAbs < 2 ^ 63 ∧
      s.cost + common (s.weight (if w < 0 then -lit else lit)) w.natAbs < 2 ^ 64
  | _, _ => True

theorem changesBy_unit {lit w : Int} (sane : Sane s) (before : Loaded s) (nonzero : lit ≠ 0)
    (bound : lit.natAbs ≤ s.solver.nVar) (plain : s.Plain lit.natAbs) (some : w ≠ 0)
    (range : w.natAbs < 2 ^ 63) (room : Roomy s [lit] w) :
    ChangesBy (toll [lit] w) s (s.addSoftClause [lit] w).2 := by
  obtain ⟨fits, word⟩ := room
  have opposite := sane.wf.weight_neg lit
  rw [addSoftClause_unit, addWeight_eq sane bound range]
  obtain ⟨l, eq⟩ : ∃ l, l = if w < 0 then -lit else lit := ⟨_, rfl⟩
  rw [← eq] at word ⊢
  have side : (w < 0 ∧ l = -lit) ∨ (0 < w ∧ l = lit) := by
    by_cases neg : w < 0
    · exact Or.inl ⟨neg, by rw [eq, if_pos neg]⟩
    · exact Or.inr ⟨by omega, by rw [eq, if_neg neg]⟩
  have spec : AddWeightSpec s.litToRelax l w.natAbs s (s.addPositiveWeight l w.natAbs) :=
    addPositiveWeight_spec sane.wf
      (by rcases side with ⟨_, rfl⟩ | ⟨_, rfl⟩
          · rw [Int.natAbs_neg]; exact plain
          · exact plain)
      (by omega) (by omega) (by omega) range
      (by rcases side with ⟨_, rfl⟩ | ⟨_, rfl⟩ <;> omega)
  have after : Loaded (s.addPositiveWeight l w.natAbs) := by
    have same := outcome_of_besides spec.besides
    simp only [EvalMaxSAT.outcome, Prod.mk.injEq] at same
    exact ⟨by rw [spec.cards]; exact before.cards, by rw [same.1]; exact before.pending,
      by rw [same.2.2]; exact before.first⟩
  have cost : (s.addPositiveWeight l w.natAbs).cost = s.cost + common (s.weight l) w.natAbs := by
    rw [spec.cost]
    split
    · rw [← Nat.cast_add, u64_of_nat word]
    · rename_i nonneg
      rw [common, if_neg nonneg, Nat.add_zero]
  have within : Within s.solver.nVar [l] := by
    intro k mem
    rw [List.mem_singleton.mp mem]
    omega
  have flipped : ∀ m, (penalty [l] w.natAbs m : Int) =
      toll [lit] w m + if w < 0 then -w else 0 := by
    intro m
    rw [penalty, toll]
    simp only [holds_unit]
    rcases side with ⟨neg, rfl⟩ | ⟨pos, rfl⟩
    · rw [litTrue_neg nonzero, if_pos neg]
      cases litTrue m lit
      · simp
      · simp only [Bool.not_true, Bool.false_eq_true, if_false, if_true]
        omega
    · rw [if_neg (by omega : ¬ w < 0)]
      cases litTrue m l
      · simp only [Bool.false_eq_true, if_false]
        omega
      · simp
  refine ⟨if w < 0 then -w else 0, fun m models =>
    ⟨_, leastOver_adds sane.wf before after spec.adds cost within models, ?_⟩⟩
  rw [Nat.cast_add, flipped]
  omega

theorem changesBy_relaxed {w : Nat} (wf : Wf s.litToRelax s) (before : Loaded s)
    (several : 2 ≤ clause.length) (within : Within s.solver.nVar clause) (pos : 0 < w)
    (range : w < 2 ^ 63) : ChangesBy (toll clause w) s (s.relaxed clause w) := by
  obtain ⟨_, adds, _⟩ := relaxed_spec wf several within pos range
  have eq := (relaxed_grow (w := w) several within).2
  have after : Loaded (s.relaxed clause w) := by
    rw [eq]
    exact ⟨before.cards, before.pending, before.first⟩
  have cost : (s.relaxed clause w).cost = s.cost + 0 := by rw [eq]; rfl
  refine ⟨0, fun m models => ⟨_, leastOver_adds wf before after adds cost within models, ?_⟩⟩
  rw [Nat.cast_add, penalty, toll]
  split <;> simp

theorem changesBy_negated_iff {w : Nat} (wf : Wf s.litToRelax s) (before : Loaded s)
    (nonempty : clause ≠ []) (within : Within s.solver.nVar clause) (pos : 0 < w)
    (range : w < 2 ^ 63) :
    ChangesBy (toll clause (-(w : Int))) s (s.negated clause w) ↔ Uniform s.solver.clauses clause := by
  classical
  have some : ∀ m, AllTrue m clause → Holds m clause := by
    intro m all
    obtain ⟨l, mem⟩ := List.exists_mem_of_ne_nil clause nonempty
    exact ⟨l, mem, all l mem⟩
  constructor
  · rintro ⟨c, changes⟩ m k modelsM modelsK
    have constant : ∀ a, Models a s.solver.clauses →
        c = (if AllTrue a clause then 0 else (w : Int)) + if Holds a clause then 0 else (w : Int) := by
      intro a models
      obtain ⟨v, least, eq⟩ := changes a models
      have same := leastOver_unique least (leastOver_negated wf before pos range within models)
      rw [same, toll, Nat.cast_add, Nat.cast_ite, Nat.cast_zero] at eq
      by_cases holds : Holds a clause
      · rw [if_pos holds] at eq ⊢
        omega
      · rw [if_neg holds] at eq ⊢
        omega
    have first := constant m modelsM
    have second := constant k modelsK
    rw [first] at second
    by_cases holdsM : Holds m clause <;> by_cases holdsK : Holds k clause <;>
      by_cases allM : AllTrue m clause <;> by_cases allK : AllTrue k clause <;>
      simp only [holdsM, holdsK, allM, allK, if_true, if_false, iff_self, and_self] at second ⊢ <;>
      first
        | exact absurd (some m allM) holdsM
        | exact absurd (some k allK) holdsK
        | omega
  · intro uniform
    by_cases models : ∃ a, Models a s.solver.clauses
    · obtain ⟨a, modelsA⟩ := models
      refine ⟨(if AllTrue a clause then 0 else (w : Int)) + if Holds a clause then 0 else (w : Int),
        fun m modelsM => ⟨_, leastOver_negated wf before pos range within modelsM, ?_⟩⟩
      obtain ⟨holds, all⟩ := uniform m a modelsM modelsA
      rw [toll, Nat.cast_add, Nat.cast_ite, Nat.cast_zero]
      simp only [holds, all]
      split <;> split <;> omega
    · exact ⟨0, fun m modelsM => absurd ⟨m, modelsM⟩ models⟩

/-- A soft clause costs what it should, except that one of negative weight and of several
literals does so only where all models treat it alike. -/
theorem signed_clause_iff {w : Int} (h : History env core loadingCall d path s)
    (literals : d.Over clause) (nonempty : clause ≠ []) (nonzero : w ≠ 0)
    (range : w.natAbs < 2 ^ 63) (room : Roomy s clause w) :
    ∃ x t, s.addClause clause (some w) = some (x, t) ∧
      (ChangesBy (toll clause w) s t ↔
        0 < w ∨ clause.length = 1 ∨ Uniform s.solver.clauses clause) := by
  obtain ⟨between, loaded⟩ := history_loaded h
  obtain ⟨within, plain⟩ := between_within between literals
  have added : s.addClause clause (some w) = some (s.addSoftClause clause w) := by
    rw [EvalMaxSAT.addClause, if_neg nonzero, if_neg]
    rintro ⟨_, solved, _⟩
    exact solved loaded.first
  refine ⟨(s.addSoftClause clause w).1, (s.addSoftClause clause w).2, added, ?_⟩
  by_cases unit : clause.length = 1
  · obtain ⟨lit, rfl⟩ := List.length_eq_one_iff.mp unit
    obtain ⟨nonzero_lit, bound⟩ := within lit (by simp)
    exact ⟨fun _ => Or.inr (Or.inl unit), fun _ => changesBy_unit between.sane loaded nonzero_lit
      bound (plain lit (by simp)) nonzero range room⟩
  · have several : 2 ≤ clause.length := by
      have := List.length_pos_iff.mpr nonempty
      omega
    rcases Int.lt_or_gt_of_ne nonzero with neg | pos
    · have same : w = -(w.natAbs : Int) := by omega
      have negated := addSoftClause_negated (w := w.natAbs) several within (by omega) range
      rw [← same] at negated
      have law := changesBy_negated_iff (w := w.natAbs) between.sane.wf loaded nonempty within
        (by omega) range
      rw [← same] at law
      rw [negated]
      refine law.trans ⟨fun uniform => Or.inr (Or.inr uniform), ?_⟩
      rintro (pos | one | uniform)
      · omega
      · exact absurd one unit
      · exact uniform
    · have same : w = (w.natAbs : Int) := by omega
      have law := changesBy_relaxed (w := w.natAbs) between.sane.wf loaded several within
        (by omega) range
      have relaxed := addSoftClause_relaxed (s := s) (w := w.natAbs) several (by omega)
      rw [← same] at law relaxed
      rw [relaxed]
      exact ⟨fun _ => Or.inl pos, fun _ => law⟩

end Law

section Two

def rewardScript : List Call :=
  [.update .newVar, .update .newVar, .update (.addClause [2] (some (-3)))]

theorem rewardScript_history : ∃ d path s, History referenceBackEnd () loadingCall d path s ∧
    decide (d.Over [1, 2] ∧ s.solver.clauses = [] ∧ s.solver.nVar = 2) = true := by
  obtain ⟨d, path, s, history, facts⟩ := history_of_replay referenceBackEnd () loadingCall 1
    rewardScript (fun r => decide (r.1.Over [1, 2] ∧ r.2.2.solver.clauses = [] ∧
      r.2.2.solver.nVar = 2)) (by decide +kernel)
  exact ⟨d, path, s, history, facts⟩

theorem signed_clause_iff_pair : ∃ s : EvalMaxSAT Unit, ∃ x t,
    s.addClause [1, 2] (some (-5)) = some (x, t) ∧
      (ChangesBy (toll [1, 2] (-5)) s t ↔
        (0 : Int) < -5 ∨ [(1 : Int), 2].length = 1 ∨ Uniform s.solver.clauses [1, 2]) := by
  obtain ⟨d, path, s, history, facts⟩ := rewardScript_history
  obtain ⟨literals, _⟩ := of_decide_eq_true facts
  exact ⟨s, signed_clause_iff history literals (by decide) (by decide) (by decide) trivial⟩

/-- The reward for a falsified pair is lost where one of the two literals is true. -/
theorem negative_pair_misjudged : ¬ ∀ (d : Story) (path : List (EvalMaxSAT Unit))
    (s : EvalMaxSAT Unit) (clause : Clause) (w : Int),
    History referenceBackEnd () loadingCall d path s → d.Over clause → clause ≠ [] → w ≠ 0 →
    w.natAbs < 2 ^ 63 → Roomy s clause w →
    ∃ x t, s.addClause clause (some w) = some (x, t) ∧ ChangesBy (toll clause w) s t := by
  intro claim
  obtain ⟨d, path, s, history, facts⟩ := rewardScript_history
  obtain ⟨literals, clauses, vars⟩ := of_decide_eq_true facts
  obtain ⟨between, loaded⟩ := history_loaded history
  obtain ⟨within, _⟩ := between_within between literals
  obtain ⟨x, t, added, changes⟩ := claim d path s [1, 2] (-5) history literals (by decide)
    (by decide) (by decide) trivial
  have pair := addClause_some (by decide) added
  have negated := addSoftClause_negated (s := s) (w := 5) (d := [1, 2]) (by decide) within (by decide)
    (by decide)
  have same : t = s.negated [1, 2] 5 := congrArg Prod.snd (pair.symm.trans negated)
  rw [same] at changes
  have uniform := (changesBy_negated_iff (w := 5) between.sane.wf loaded (by decide) within
    (by decide) (by decide)).mp changes
  rw [clauses] at uniform
  have holds := (uniform (fun _ => true) (fun _ => false) (by simp [Models]) (by simp [Models])).1
  exact absurd (holds.mp (by decide)) (by decide)

end Two
end EvalMaxSat
