import EvalMaxSat.Runs

/-!
Histories of public calls: what the caller has declared and asked for, and what every call
keeps of the state between two of them.
-/
namespace EvalMaxSat
open Literals OrderedContainers LawfulSink EvalMaxSAT StepProgram

variable {K : Type} {env : Env K} {s t u : EvalMaxSAT K}

/-- A public call that is no `solve`. -/
inductive Update where
  | newVar
  | newSoftVar (value : Bool) (weight : Int)
  | addClause (clause : Clause) (w : Option Int)
  | addWeight (lit weight : Int)
  | unactivateDelayStrategy
  | unactivateMultiSolveStrategy
  | unactivateUBStrategy
  | disableOptimize
  | setIncremental (value : Bool)
  | setNInputVars (n : Nat)
  deriving DecidableEq, Repr

namespace Update

def apply : Update → EvalMaxSAT K → Option (Int × EvalMaxSAT K)
  | newVar, s => some s.newVar
  | newSoftVar value weight, s => some (s.newSoftVar value weight)
  | addClause clause w, s => s.addClause clause w
  | addWeight lit weight, s => some (0, s.addWeight lit weight)
  | unactivateDelayStrategy, s => some (0, s.unactivateDelayStrategy)
  | unactivateMultiSolveStrategy, s => some (0, s.unactivateMultiSolveStrategy)
  | unactivateUBStrategy, s => some (0, s.unactivateUBStrategy)
  | disableOptimize, s => some (0, s.disableOptimize)
  | setIncremental value, s => some (0, s.setIncremental value)
  | setNInputVars n, s => some (0, s.setNInputVars n)

/-- The weight that the call brings, whatever its sign. -/
def load : Update → Nat
  | newSoftVar _ weight => weight.natAbs
  | addClause _ (some w) => w.natAbs
  | addWeight _ weight => weight.natAbs
  | _ => 0

def Positive : Update → Prop
  | newSoftVar _ weight => 0 < weight
  | addClause _ (some w) => 0 < w
  | addWeight _ weight => 0 < weight
  | _ => True

/-- No entry of `_poids` leaves the range of `long long`. -/
def Fits (s : EvalMaxSAT K) : Update → Prop
  | addClause [lit] (some w) => (s.weight lit + w).natAbs < 2 ^ 63
  | addWeight lit weight => (s.weight lit + weight).natAbs < 2 ^ 63
  | _ => True

end Update

/-- What a caller has declared and asked for: the variables it made, those that came with a
weight or a soft clause, and the clauses in the order of the calls. -/
structure Story where
  vars : List Nat
  softVars : List Nat
  hard : Cnf
  soft : List (Clause × Int)
  deriving DecidableEq, Repr

namespace Story

def empty : Story := ⟨[], [], [], []⟩

def record (d : Story) (u : Update) (x : Int) : Story :=
  match u with
  | .newVar => { d with vars := d.vars ++ [x.natAbs] }
  | .newSoftVar value w => { d with
      softVars := d.softVars ++ [x.natAbs]
      soft := d.soft ++ [([if value then x else -x], w)] }
  | .addClause clause none => { d with hard := d.hard ++ [clause] }
  | .addClause clause (some w) => { d with
      softVars := if x = 0 then d.softVars else d.softVars ++ [x.natAbs]
      soft := d.soft ++ [(clause, w)] }
  | .addWeight lit w => { d with soft := d.soft ++ [([lit], w)] }
  | _ => d

def total (d : Story) : Nat := (d.soft.map fun c => c.2.natAbs).sum

def Declared (d : Story) (v : Nat) : Prop := v ∈ d.vars ∨ v ∈ d.softVars

def Over (d : Story) (clause : Clause) : Prop := ∀ l ∈ clause, l ≠ 0 ∧ d.Declared l.natAbs

/-- Literals are over declared variables, weights are not zero and can be negated. -/
def Admits (d : Story) : Update → Prop
  | .newSoftVar _ w => w ≠ 0 ∧ w.natAbs < 2 ^ 63
  | .addClause clause none => d.Over clause
  | .addClause clause (some w) => d.Over clause ∧ w ≠ 0 ∧ w.natAbs < 2 ^ 63
  | .addWeight lit w => d.Over [lit] ∧ w ≠ 0 ∧ w.natAbs < 2 ^ 63
  | _ => True

theorem total_record (d : Story) (u : Update) (x : Int) : (d.record u x).total = d.total + u.load := by
  cases u with
  | addClause clause w => cases w <;> simp [record, total, Update.load]
  | _ => simp [record, total, Update.load]

end Story

inductive Call where
  | update (u : Update)
  | solve

/-- `History env core allow d path s`: calls that `allow` admits lead from a fresh object to the
state `s`, by way of the states `path`, and tell the story `d`. -/
inductive History (env : Env K) (core : K) (allow : Story → EvalMaxSAT K → Call → Prop) :
    Story → List (EvalMaxSAT K) → EvalMaxSAT K → Prop
  | fresh : History env core allow .empty [.fresh core] (.fresh core)
  | update {d path s u x t} : History env core allow d path s → allow d s (.update u) →
      u.apply s = some (x, t) → History env core allow (d.record u x) (path ++ [t]) t
  | solve {d path s tr b t} : History env core allow d path s → allow d s .solve →
      (EvalMaxSAT.solve env).Ends s tr (.done b) t →
      History env core allow d (path ++ tr.map Event.after) t

theorem history_mono {core : K} {allow permit : Story → EvalMaxSAT K → Call → Prop} {d : Story}
    {path : List (EvalMaxSAT K)} (weaker : ∀ d s c, allow d s c → permit d s c)
    (h : History env core allow d path s) : History env core permit d path s := by
  induction h with
  | fresh => exact .fresh
  | update _ allowed applied ih => exact .update ih (weaker _ _ _ allowed) applied
  | solve _ allowed ends ih => exact .solve ih (weaker _ _ _ allowed) ends

def anyCall (d : Story) (_ : EvalMaxSAT K) : Call → Prop
  | .update u => d.Admits u
  | .solve => True

def positiveCall (d : Story) (_ : EvalMaxSAT K) : Call → Prop
  | .update u => d.Admits u ∧ u.Positive
  | .solve => True

theorem any_of_positive {d : Story} (c : Call) (allowed : positiveCall d s c) : anyCall d s c := by
  cases c with
  | update u => exact allowed.1
  | solve => trivial

/-- What holds between two calls. -/
structure Between (d : Story) (s : EvalMaxSAT K) : Prop where
  sane : Sane s
  idle : s.startSolve = false
  inside : ∀ v, d.Declared v → 0 < v ∧ v ≤ s.solver.nVar ∧ s.Plain v

/-- What a call other than `solve` does, where `pos` says that its weight is positive. -/
structure Changed (pos : Prop) (load : Nat) (s t : EvalMaxSAT K) : Prop where
  sane : Sane t
  start : t.startSolve = s.startSolve
  vars : s.solver.nVar ≤ t.solver.nVar
  clauses : s.solver.clauses ⊆ t.solver.clauses
  plain : ∀ v ≤ s.solver.nVar, t.Plain v ↔ s.Plain v
  potential : t.potential ≤ s.potential + load
  spent : pos → s.cost + s.potential + load < 2 ^ 64 →
    t.cost + t.potential ≤ s.cost + s.potential + load
  climbs : Climbs 0 s t

section Changes
variable {pos : Prop} {clause : Clause} {w : Nat} {lit : Int}

theorem changed_of_adds {e : Nat} (wf : Wf s.litToRelax t)
    (adds : Adds clause w e s t) (cost : t.cost = u64 (s.cost + e)) (besides : t.besides = s.besides)
    (climbs : Climbs 0 s t) : Changed pos w s t where
  sane := ⟨by rw [show t.litToRelax = s.litToRelax from congrArg Prod.fst besides]; exact wf,
    by rw [cost]; exact u64_lt _⟩
  start := congrArg (fun b => b.2.2.1) besides
  vars := adds.vars
  clauses := adds.clauses
  plain := adds.plain
  potential := by have := adds.potential; omega
  spent := by
    intro _ room
    have := adds.potential
    have exact_cost : t.cost = s.cost + e := by
      rw [cost, ← Nat.cast_add, u64_of_nat (by omega)]
    omega
  climbs := climbs

theorem changed_unit (sane : Sane s) (unit : UnitSpec s.litToRelax lit s t) : Changed pos 0 s t where
  sane := by
    refine ⟨?_, ?_⟩
    · rw [show t.litToRelax = s.litToRelax from congrArg Prod.fst unit.besides]
      exact unit.wf
    · rw [unit.cost]
      split
      · exact u64_lt _
      · exact sane.word
  start := congrArg (fun b => b.2.2.1) unit.besides
  vars := unit.sim.vars
  clauses := unit.sim.clauses
  plain := unit.sim.plain
  potential := by have := unit.sim.potential; omega
  spent := by
    intro _ room
    have paid := unit.sim.potential
    rw [unitCharge_every] at paid
    have cost : t.cost ≤ s.cost + (s.weight lit).natAbs := by
      rw [unit.cost]
      split
      · rw [show (s.cost : Int) - s.weight lit = ((s.cost + (s.weight lit).natAbs : Nat) : Int) by omega,
          u64_of_nat (by omega)]
      · omega
    omega
  climbs := unit.climbs

theorem changed_grow {n : Nat} {cs : Cnf} (sane : Sane s)
    (within : ∀ c ∈ cs, Within (s.solver.nVar + n) c) : Changed pos 0 s (s.grow n cs) where
  sane := ⟨wf_grow sane.wf within, sane.word⟩
  start := rfl
  vars := Nat.le_add_right _ _
  clauses := List.subset_append_left _ _
  plain := fun _ _ => Iff.rfl
  potential := by simp only [EvalMaxSAT.potential, owed_grow]; omega
  spent := by
    intro _ _
    simp only [EvalMaxSAT.potential, owed_grow]
    exact Nat.le_refl _
  climbs := climbs_grow sane.wf

/-- Everything but the cost, the solution and the settings. -/
def EvalMaxSAT.formula (s : EvalMaxSAT K) :=
  (s.solver, s.poids, s.mapWeight2Assum, s.mapAssum2Card, s.cards, s.cardToAdd, s.litToRelax)

theorem changed_aside (sane : Sane s) (same : t.formula = s.formula) (word : t.cost < 2 ^ 64)
    (start : t.startSolve = s.startSolve)
    (spent : pos → s.cost + s.potential + w < 2 ^ 64 → t.cost ≤ s.cost + w) : Changed pos w s t := by
  simp only [EvalMaxSAT.formula, Prod.mk.injEq] at same
  obtain ⟨solver, poids, map, entries, cards, pending, waits⟩ := same
  have potential : t.potential = s.potential := by
    simp only [EvalMaxSAT.potential, EvalMaxSAT.owed, poids, cards, pending]
  refine ⟨⟨?_, word⟩, start, by rw [solver], by rw [solver]; exact List.Subset.refl _,
    fun v _ => by unfold EvalMaxSAT.Plain; rw [cards], by omega, ?_, ?_⟩
  · rw [waits]
    exact wf_congr sane.wf (by rw [solver]) (by rw [solver]) poids map entries cards pending
  · intro yes room
    have := spent yes room
    omega
  · exact climbs_congr (climbs_refl sane.wf) rfl rfl rfl (by rw [solver])
      (by unfold EvalMaxSAT.weight; rw [poids]) cards

theorem changed_setting (sane : Sane s) (same : t.formula = s.formula) (cost : t.cost = s.cost)
    (start : t.startSolve = s.startSolve) : Changed pos 0 s t :=
  changed_aside sane same (by rw [cost]; exact sane.word) start fun _ _ => Nat.le_of_eq cost

theorem newVars_zero (s : EvalMaxSAT K) : newVars 0 s = s := rfl

structure SoftSpec (clause : Clause) (w e : Nat) (s t : EvalMaxSAT K) : Prop where
  wf : Wf s.litToRelax t
  adds : Adds clause w e s t
  cost : t.cost = u64 (s.cost + e)
  besides : t.besides = s.besides
  climbs : Climbs 0 s t

theorem addPositiveWeight_soft {l : Int} (sane : Sane s) (nonzero : l ≠ 0) (bound : l.natAbs ≤ s.solver.nVar)
    (plain : s.Plain l.natAbs) (some : 0 < w) (small : w < 2 ^ 63)
    (fits : (s.weight l + w).natAbs < 2 ^ 63) :
    ∃ e, SoftSpec [l] w e s (s.addPositiveWeight l w) := by
  have spec := addPositiveWeight_spec sane.wf plain nonzero bound some small fits
  refine ⟨_, spec.wf, spec.adds, ?_, spec.besides, spec.climbs⟩
  rw [spec.cost]
  split
  · rfl
  · rename_i nonneg
    rw [common, if_neg nonneg, Nat.cast_zero, Int.add_zero, u64_of_nat sane.word]

theorem addWeight_eq {weight : Int} (sane : Sane s) (bound : lit.natAbs ≤ s.solver.nVar)
    (range : weight.natAbs < 2 ^ 63) : s.addWeight lit weight =
      s.addPositiveWeight (if weight < 0 then -lit else lit) weight.natAbs := by
  have size := sane.wf.poidsSize
  simp only [EvalMaxSAT.addWeight, show lit.natAbs + 1 - s.poids.size = 0 by omega, newVars_zero]
  split
  · rw [i64_of_range (by omega) (by omega)]
    congr 1
    omega
  · congr 1
    omega

theorem addSoftClause_nil (w : Int) : s.addSoftClause [] w = (0, s.withCost (u64 (s.cost + w))) := rfl

theorem addSoftClause_unit (lit w : Int) : s.addSoftClause [lit] w = (0, s.addWeight lit w) := rfl

theorem addSoftClause_relaxed (several : 2 ≤ clause.length) (some : 0 < w) :
    s.addSoftClause clause w = (((s.solver.nVar + 1 : Nat) : Int), s.relaxed clause w) := by
  match clause, several with
  | a :: b :: rest, _ =>
    simp only [EvalMaxSAT.addSoftClause]
    rw [if_pos (by omega)]
    rfl

theorem addSoftClause_negated {d : Clause} (several : 2 ≤ d.length)
    (within : Within s.solver.nVar d) (some : 0 < w) (small : w < 2 ^ 63) :
    s.addSoftClause d (-(w : Int)) =
      (((s.solver.nVar + 1 : Nat) : Int), s.negated d w) := by
  have flipped : i64 (-(-(w : Int))) = w := by rw [neg_neg, i64_of_range (by omega) (by omega)]
  have pairs := addPairs_eq (t := (s.newSoftVar true w).2)
    (x := -((s.solver.nVar + 1 : Nat) : Int)) (c := d) (by omega)
    (by rw [newSoftVar_solver]; simp only; omega)
    (by rw [newSoftVar_solver]; exact within_mono (Nat.le_succ _) within)
  match d, several, pairs with
  | a :: b :: rest, _, pairs =>
    simp only [EvalMaxSAT.addSoftClause, flipped]
    rw [if_neg (by omega)]
    exact Prod.ext rfl pairs

theorem adds_nil (c : Nat) : Adds [] w w s (s.withCost c) := by
  have owes : ∀ m, s.owed (falsified m) + penalty [] w m = (s.withCost c).owed (falsified m) + w := by
    intro m
    rw [penalty, if_neg (by simp [Holds])]
    rfl
  refine ⟨Nat.le_refl _, List.Subset.refl _, fun _ _ => Iff.rfl, Nat.le_refl _, ?_,
    fun m _ => Nat.le_of_eq (owes m)⟩
  intro m models canonical
  exact ⟨m, agree_refl _ m, models, canonical, (owes m).symm⟩

/-- The three encodings of a soft clause of positive weight. -/
theorem addSoftClause_soft (sane : Sane s) (within : Within s.solver.nVar clause)
    (plain : ∀ l ∈ clause, s.Plain l.natAbs) (some : 0 < w) (small : w < 2 ^ 63)
    (fits : ∀ l, clause = [l] → (s.weight l + w).natAbs < 2 ^ 63) :
    ∃ e, SoftSpec clause w e s (s.addSoftClause clause w).2 := by
  match clause with
  | [] =>
    rw [addSoftClause_nil]
    exact ⟨w, wf_withCost sane.wf _, adds_nil _, rfl, rfl,
      climbs_congr (climbs_refl sane.wf) rfl rfl rfl rfl rfl rfl⟩
  | [lit] =>
    obtain ⟨nonzero, bound⟩ := within lit (by simp)
    rw [addSoftClause_unit, addWeight_eq sane bound (by omega), if_neg (by omega), Int.natAbs_natCast]
    exact addPositiveWeight_soft sane nonzero bound (plain lit (by simp)) some small (fits lit rfl)
  | a :: b :: rest =>
    have several : 2 ≤ (a :: b :: rest).length := by simp
    obtain ⟨wf, adds, _, _, climbs⟩ := relaxed_spec sane.wf several within some small
    rw [addSoftClause_relaxed several some]
    have grow := (relaxed_grow (w := w) several within).2
    refine ⟨0, wf, adds, ?_, ?_, climbs⟩
    · rw [grow, Nat.cast_zero, Int.add_zero, u64_of_nat sane.word]; rfl
    · rw [grow]; rfl

theorem addSoftClause_changed (sane : Sane s) (within : Within s.solver.nVar clause)
    (plain : ∀ l ∈ clause, s.Plain l.natAbs) {weight : Int} (nonzero : weight ≠ 0)
    (small : weight.natAbs < 2 ^ 63)
    (fits : ∀ l, clause = [l] → (s.weight l + weight).natAbs < 2 ^ 63) :
    Changed (0 < weight) weight.natAbs s (s.addSoftClause clause weight).2 := by
  rcases Int.lt_or_gt_of_ne nonzero with neg | positive
  · match clause with
    | [] =>
      rw [addSoftClause_nil]
      exact changed_aside sane rfl (u64_lt _) rfl fun positive => by omega
    | [lit] =>
      obtain ⟨nonzero, bound⟩ := within lit (by simp)
      have range := fits lit rfl
      have opposite := sane.wf.weight_neg lit
      rw [addSoftClause_unit, addWeight_eq sane bound small, if_pos neg]
      obtain ⟨e, spec⟩ := addPositiveWeight_soft (l := -lit) (w := weight.natAbs) sane (by omega)
        (by rw [Int.natAbs_neg]; exact bound) (by rw [Int.natAbs_neg]; exact plain lit (by simp))
        (by omega) small (by omega)
      exact changed_of_adds spec.wf spec.adds spec.cost spec.besides spec.climbs
    | a :: b :: rest =>
      obtain ⟨wf, potential, _, climbs⟩ := negated_spec (w := weight.natAbs) sane.wf within
        (by omega) small
      have same : weight = -(weight.natAbs : Int) := by omega
      have eq := addSoftClause_negated (w := weight.natAbs) (d := a :: b :: rest) (by simp)
        within (by omega) small
      rw [← same] at eq
      rw [eq]
      exact ⟨⟨wf, sane.word⟩, rfl, Nat.le_succ _, List.subset_append_left _ _, fun _ _ => Iff.rfl,
        Nat.le_of_eq potential, fun positive => by omega, climbs⟩
  · obtain ⟨e, spec⟩ := addSoftClause_soft (w := weight.natAbs) sane within plain (by omega) small
      (fun l eq => by have := fits l eq; omega)
    have same : (weight.natAbs : Int) = weight := by omega
    rw [same] at spec
    exact changed_of_adds spec.wf spec.adds spec.cost spec.besides spec.climbs

theorem addHardClause_changed (sane : Sane s) (within : Within s.solver.nVar clause) :
    Changed pos 0 s (s.addHardClause clause) := by
  by_cases unit : clause.length = 1
  · obtain ⟨lit, rfl⟩ := List.length_eq_one_iff.mp unit
    obtain ⟨nonzero, bound⟩ := within lit (by simp)
    exact changed_unit sane (addUnit_spec sane.wf nonzero bound)
  · rw [addHardClause_grow within unit]
    apply changed_grow sane
    intro c mem
    rw [List.mem_singleton.mp mem]
    exact within

end Changes

section Updates
variable {d : Story} {x : Int}

theorem between_within (between : Between d s) {clause : Clause} (literals : d.Over clause) :
    Within s.solver.nVar clause ∧ ∀ l ∈ clause, s.Plain l.natAbs := by
  refine ⟨fun l mem => ?_, fun l mem => ?_⟩
  · obtain ⟨nonzero, declared⟩ := literals l mem
    exact ⟨nonzero, (between.inside _ declared).2.1⟩
  · exact (between.inside _ (literals l mem).2).2.2

theorem addClause_some {clause : Clause} {w : Int} (nonzero : w ≠ 0)
    (applied : s.addClause clause (some w) = some (x, t)) : s.addSoftClause clause w = (x, t) := by
  simp only [EvalMaxSAT.addClause, if_neg nonzero] at applied
  split at applied
  · simp at applied
  · exact Option.some.inj applied

theorem addSoftClause_returns (between : Between d s) {clause : Clause} {w : Int}
    (literals : d.Over clause) (nonzero : w ≠ 0) (small : w.natAbs < 2 ^ 63)
    (returns : (s.addSoftClause clause w).1 ≠ 0) :
    (s.addSoftClause clause w).1 = ((s.solver.nVar + 1 : Nat) : Int) ∧
      (s.addSoftClause clause w).2.solver.nVar = s.solver.nVar + 1 ∧
      (s.addSoftClause clause w).2.cards = s.cards := by
  have within := (between_within between literals).1
  match clause, within, returns with
  | [], _, returns => exact absurd rfl returns
  | [lit], _, returns => exact absurd rfl returns
  | a :: b :: rest, within, _ =>
    rcases Int.lt_or_gt_of_ne nonzero with neg | positive
    · have same : w = -(w.natAbs : Int) := by omega
      rw [same, addSoftClause_negated (by simp) within (by omega) small]
      exact ⟨rfl, rfl, rfl⟩
    · have same : w = (w.natAbs : Int) := by omega
      rw [same, addSoftClause_relaxed (by simp) (by omega), (relaxed_grow (by simp) within).2]
      exact ⟨rfl, rfl, rfl⟩

theorem declared_new (sane : Sane s) (vars : t.solver.nVar = s.solver.nVar + 1)
    (cards : t.cards = s.cards) :
    0 < s.solver.nVar + 1 ∧ s.solver.nVar + 1 ≤ t.solver.nVar ∧ t.Plain (s.solver.nVar + 1) := by
  refine ⟨Nat.succ_pos _, Nat.le_of_eq vars.symm, ?_⟩
  unfold EvalMaxSAT.Plain
  rw [cards]
  exact plain_fresh sane.wf (Nat.lt_succ_self _)

theorem changed_of_apply (between : Between d s) {u : Update} (admits : d.Admits u)
    (fits : u.Fits s) (applied : u.apply s = some (x, t)) :
    Changed u.Positive u.load s t ∧ ∀ v, (d.record u x).Declared v →
      d.Declared v ∨ (0 < v ∧ v ≤ t.solver.nVar ∧ t.Plain v) := by
  have sane := between.sane
  cases u with
  | newVar =>
    rw [Update.apply, newVar_eq] at applied
    simp only [Option.some.injEq, Prod.mk.injEq] at applied
    obtain ⟨rfl, rfl⟩ := applied
    refine ⟨changed_grow sane (by simp), fun v declared => ?_⟩
    simp only [Story.Declared, Story.record, List.mem_append, List.mem_singleton] at declared
    rcases declared with (old | rfl) | old
    · exact Or.inl (Or.inl old)
    · exact Or.inr (declared_new sane rfl rfl)
    · exact Or.inl (Or.inr old)
  | newSoftVar value w =>
    obtain ⟨nonzero, small⟩ := admits
    obtain ⟨wf, potential, _⟩ := newSoftVar_spec sane.wf value nonzero small
    have climbs := newSoftVar_climbs sane.wf value small
    rw [Update.apply] at applied
    obtain ⟨first, second⟩ := Prod.ext_iff.mp (Option.some.inj applied)
    replace first : ((s.solver.nVar + 1 : Nat) : Int) = x := first
    replace second : (s.newSoftVar value w).2 = t := second
    rw [← second]
    refine ⟨⟨⟨wf, sane.word⟩, rfl, Nat.le_succ _, List.Subset.refl _, fun _ _ => Iff.rfl,
      Nat.le_of_eq potential, fun _ _ => ?_, climbs⟩, fun v declared => ?_⟩
    · rw [potential]
      exact Nat.le_of_eq (Nat.add_assoc _ _ _).symm
    · simp only [Story.Declared, Story.record, List.mem_append, List.mem_singleton] at declared
      rcases declared with old | old | rfl
      · exact Or.inl (Or.inl old)
      · exact Or.inl (Or.inr old)
      · rw [← first]
        exact Or.inr (declared_new sane rfl rfl)
  | addClause clause w =>
    cases w with
    | none =>
      obtain ⟨within, _⟩ := between_within between (show d.Over clause from admits)
      rw [Update.apply, EvalMaxSAT.addClause] at applied
      simp only [Option.some.injEq, Prod.mk.injEq] at applied
      obtain ⟨rfl, rfl⟩ := applied
      exact ⟨addHardClause_changed sane within, fun v declared => Or.inl declared⟩
    | some w =>
      obtain ⟨literals, nonzero, small⟩ := admits
      obtain ⟨within, plain⟩ := between_within between literals
      have added := addClause_some nonzero applied
      have changed := addSoftClause_changed sane within plain nonzero small (by
        rintro l rfl; exact fits)
      have returns := addSoftClause_returns between literals nonzero small
      rw [added] at changed returns
      refine ⟨changed, fun v declared => ?_⟩
      simp only [Story.Declared, Story.record] at declared
      split at declared
      · exact Or.inl declared
      · rename_i new
        obtain ⟨eq, vars, cards⟩ := returns new
        replace eq : x = ((s.solver.nVar + 1 : Nat) : Int) := eq
        simp only [List.mem_append, List.mem_singleton] at declared
        rcases declared with old | old | rfl
        · exact Or.inl (Or.inl old)
        · exact Or.inl (Or.inr old)
        · rw [eq]
          exact Or.inr (declared_new sane vars cards)
  | addWeight lit w =>
    obtain ⟨literals, nonzero, small⟩ := admits
    obtain ⟨within, plain⟩ := between_within between literals
    have changed := addSoftClause_changed sane within plain nonzero small (by
      intro l eq
      rw [← List.singleton_inj.mp eq]
      exact fits)
    rw [addSoftClause_unit] at changed
    rw [Update.apply] at applied
    simp only [Option.some.injEq, Prod.mk.injEq] at applied
    obtain ⟨rfl, rfl⟩ := applied
    exact ⟨changed, fun v declared => Or.inl declared⟩
  | unactivateDelayStrategy | unactivateMultiSolveStrategy | unactivateUBStrategy | disableOptimize
  | setIncremental value | setNInputVars n =>
    rw [Update.apply] at applied
    simp only [Option.some.injEq, Prod.mk.injEq] at applied
    obtain ⟨rfl, rfl⟩ := applied
    exact ⟨changed_setting sane rfl rfl rfl, fun v declared => Or.inl declared⟩

theorem between_of_apply (between : Between d s) {u : Update} (admits : d.Admits u)
    (fits : u.Fits s) (applied : u.apply s = some (x, t)) : Between (d.record u x) t := by
  obtain ⟨changed, declared⟩ := changed_of_apply between admits fits applied
  refine ⟨changed.sane, changed.start.trans between.idle, fun v known => ?_⟩
  rcases declared v known with old | new
  · obtain ⟨pos, bound, plain⟩ := between.inside v old
    exact ⟨pos, bound.trans changed.vars, (changed.plain v bound).mpr plain⟩
  · exact new

end Updates

section Invariants
variable {core : K} {d : Story} {path : List (EvalMaxSAT K)}

def fittingCall (d : Story) (s : EvalMaxSAT K) : Call → Prop
  | .update u => d.Admits u ∧ u.Fits s
  | .solve => True

theorem between_fresh (core : K) : Between .empty (fresh core) := by
  have unweighted : ∀ lit : Int, (fresh core).weight lit = 0 := by
    intro lit
    have zero : ([0] : List Int).getD lit.natAbs 0 = 0 := by
      cases lit.natAbs <;> simp
    simp only [EvalMaxSAT.weight, fresh, WeightVector.get, zero]
    split <;> rfl
  refine ⟨⟨⟨rfl, rfl, rfl, by simp [ClausesWithin, fresh], ?_, ?_, by simp [fresh], by simp [fresh], ?_,
    by simp [fresh], by simp [fresh], by simp [fresh]⟩, by simp [fresh]⟩, rfl, ?_⟩
  · intro i
    cases i <;> simp [fresh]
  · intro lit w
    rw [unweighted]
    simp only [InBucket, fresh, OMap.lookup_empty]
    simp only [reduceCtorEq, false_and, exists_false, false_iff]
    omega
  · intro v e entry
    simp only [EvalMaxSAT.cardOf, fresh] at entry
    cases v <;> simp at entry
  · intro v declared
    simp [Story.Declared, Story.empty] at declared

theorem between_of_ends {tr : Trace K} {o : Outcome Bool} (sound : env.Sound) (between : Between d s)
    (ends : (EvalMaxSAT.solve env).Ends s tr o t) : Between d t ∧ ∀ e ∈ tr, Sane e.after := by
  obtain ⟨_, path, ok, sane, idle⟩ := steps_of_ends sound between.sane between.idle ends
  refine ⟨⟨sane, idle, fun v declared => ?_⟩, fun e mem => (solveStep_sane (ok e mem)).2⟩
  obtain ⟨pos, bound, plain⟩ := between.inside v declared
  obtain ⟨⟨bound', plain'⟩, _⟩ := chain_invariant (fun u => v ≤ u.solver.nVar ∧ u.Plain v) path
    ⟨bound, plain⟩ (fun e mem before => by
      have step := stepped_of_solveStep (ok e mem)
      exact ⟨before.1.trans step.vars, (step.plain v before.1).mpr before.2⟩)
  exact ⟨pos, bound', plain'⟩

theorem history_between (sound : env.Sound) (h : History env core fittingCall d path s) :
    Between d s ∧ ∀ t ∈ path, Sane t := by
  induction h with
  | fresh =>
    refine ⟨between_fresh core, fun t mem => ?_⟩
    rw [List.mem_singleton.mp mem]
    exact (between_fresh core).sane
  | update _ allowed applied ih =>
    have between := between_of_apply ih.1 allowed.1 allowed.2 applied
    refine ⟨between, fun t mem => ?_⟩
    rcases List.mem_append.mp mem with old | new
    · exact ih.2 t old
    · rw [List.mem_singleton.mp new]
      exact between.sane
  | solve _ _ ends ih =>
    obtain ⟨between, sane⟩ := between_of_ends sound ih.1 ends
    refine ⟨between, fun t mem => ?_⟩
    rcases List.mem_append.mp mem with old | new
    · exact ih.2 t old
    · obtain ⟨e, inTrace, rfl⟩ := List.mem_map.mp new
      exact sane e inTrace

theorem weight_le_potential (wf : Wf ws s) (lit : Int) : (s.weight lit).natAbs ≤ s.potential := by
  have entry := WeightVector.entry_le_softSum s.poids lit.natAbs
  have same : (s.weight lit).natAbs = (s.poids.weight.getD lit.natAbs 0).natAbs := by
    rw [WeightVector.entry_eq wf.poids_bounded lit]
    simp only [WeightVector.signed, EvalMaxSAT.weight]
    split <;> omega
  simp only [EvalMaxSAT.potential, EvalMaxSAT.owed]
  omega

theorem fits_of_total (between : Between d s) {u : Update} (potential : s.potential ≤ d.total)
    (small : d.total + u.load < 2 ^ 63) : u.Fits s := by
  have below := weight_le_potential between.sane.wf
  unfold Update.Fits
  split
  · rename_i lit w
    have := below lit
    simp only [Update.load] at small
    omega
  · rename_i lit w
    have := below lit
    simp only [Update.load] at small
    omega
  · trivial

theorem history_fits (sound : env.Sound) (h : History env core anyCall d path s)
    (small : d.total < 2 ^ 63) : History env core fittingCall d path s ∧ s.potential ≤ d.total ∧
      ∀ t ∈ path, t.potential ≤ d.total := by
  induction h with
  | fresh => exact ⟨.fresh, by simp [EvalMaxSAT.potential, EvalMaxSAT.owed, fresh, softSum, pendingSum, cardSum,
      WeightVector.size], by simp [EvalMaxSAT.potential, EvalMaxSAT.owed, fresh, softSum, pendingSum, cardSum,
      WeightVector.size]⟩
  | @update d path s u x t _ allowed applied ih =>
    rw [Story.total_record] at small ⊢
    obtain ⟨fitting, potential, all⟩ := ih (by omega)
    have between := (history_between sound fitting).1
    have fits := fits_of_total between potential small
    obtain ⟨changed, _⟩ := changed_of_apply between allowed fits applied
    have less := changed.potential
    refine ⟨.update fitting ⟨allowed, fits⟩ applied, by omega, fun t mem => ?_⟩
    rcases List.mem_append.mp mem with old | new
    · have := all t old; omega
    · rw [List.mem_singleton.mp new]; omega
  | @solve d path s tr b t _ allowed ends ih =>
    obtain ⟨fitting, potential, all⟩ := ih small
    have between := (history_between sound fitting).1
    obtain ⟨_, steps, ok, _⟩ := steps_of_ends sound between.sane between.idle ends
    obtain ⟨final, during⟩ := chain_invariant (fun u => u.potential ≤ d.total) steps potential
      (fun e mem before => (stepped_of_solveStep (ok e mem)).potential.trans before)
    refine ⟨.solve fitting trivial ends, final, fun t mem => ?_⟩
    rcases List.mem_append.mp mem with old | new
    · exact all t old
    · obtain ⟨e, inTrace, rfl⟩ := List.mem_map.mp new
      exact (during e inTrace).2

end Invariants

end EvalMaxSat
