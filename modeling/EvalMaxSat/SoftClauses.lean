import EvalMaxSat.HardClauses

/-!
Soft clauses: a new soft variable, a clause relaxed by one, and more weight on a literal
that no cardinality made.
-/
namespace EvalMaxSat
open Literals OrderedContainers LawfulSink

variable {K : Type} {ws : List Int} {s t : EvalMaxSAT K} {lit : Int} {w : Nat}

/-- What an assignment owes for a soft clause. -/
def penalty (c : Clause) (w : Nat) (m : Assignment) : Nat := if Holds m c then 0 else w

theorem penalty_agree {n : Nat} {c : Clause} {m k : Assignment} (agree : AgreeUpTo n m k)
    (within : Within n c) : penalty c w k = penalty c w m := by
  simp only [penalty, holds_agree agree within]

theorem penalty_unit {m : Assignment} :
    penalty [lit] w m = if falsified m lit then w else 0 := by
  simp only [penalty, holds_unit, falsified]
  by_cases value : litTrue m lit = true <;> simp [value]

/-- `t` describes the problem of `s` with a soft clause of weight `w` more, where the cost
takes `d`. -/
structure Adds (c : Clause) (w d : Nat) (s t : EvalMaxSAT K) : Prop where
  vars : s.solver.nVar ≤ t.solver.nVar
  clauses : s.solver.clauses ⊆ t.solver.clauses
  plain : ∀ v ≤ s.solver.nVar, t.Plain v ↔ s.Plain v
  potential : t.potential + d ≤ s.potential + w
  forward : ∀ m, Models m s.solver.clauses → s.Canonical m →
    ∃ k, AgreeUpTo s.solver.nVar m k ∧ Models k t.solver.clauses ∧ t.Canonical k ∧
      t.owed (falsified k) + d = s.owed (falsified m) + penalty c w m
  backward : ∀ m, Models m t.solver.clauses →
    s.owed (falsified m) + penalty c w m ≤ t.owed (falsified m) + d

theorem plain_fresh (wf : Wf ws s) {v : Nat} (fresh : s.solver.nVar < v) : s.Plain v := by
  intro c o k cell made
  have := (wf.output_pos cell made).2
  omega

theorem plain_grow {n v : Nat} {cs : Cnf} (plain : s.Plain v) : (s.grow n cs).Plain v := plain

/-- The literal of the new variable that gets the weight. -/
def softLiteral (s : EvalMaxSAT K) (value : Bool) (weight : Int) : Int :=
  if (if weight < 0 then !value else value) then ((s.solver.nVar + 1 : Nat) : Int)
  else -((s.solver.nVar + 1 : Nat) : Int)

theorem newSoftVar_eq (wf : Wf ws s) (value : Bool) {weight : Int}
    (range : weight.natAbs < 2 ^ 63) :
    s.newSoftVar value weight = (((s.solver.nVar + 1 : Nat) : Int),
      (s.grow 1 []).putWeight (softLiteral s value weight) weight.natAbs
        (s.mapWeight2Assum.insertLit weight.natAbs (softLiteral s value weight))) := by
  have size := wf.poidsSize
  have pushed : ∀ x : Int, (s.poids.weight ++ [(0 : Int)]).set (s.solver.nVar + 1) x =
      s.poids.weight ++ [x] := by
    intro x
    simp only [WeightVector.size] at size
    rw [List.set_append_right _ _ (by omega), size, Nat.sub_self]
    rfl
  obtain ⟨value', weight', split, nonneg, abs⟩ : ∃ value' weight',
      (if weight < 0 then (!value, i64 (-weight)) else (value, weight)) = (value', weight') ∧
      0 ≤ weight' ∧ weight'.natAbs = weight.natAbs ∧
      value' = if weight < 0 then !value else value := by
    by_cases neg : weight < 0
    · exact ⟨!value, -weight, by rw [if_pos neg, i64_of_range (by omega) (by omega)], by omega,
        by omega, by rw [if_pos neg]⟩
    · exact ⟨value, weight, by rw [if_neg neg], by omega, rfl, by rw [if_neg neg]⟩
  have cast : ((weight.natAbs : Nat) : Int) = weight' := by omega
  have word : u64 weight' = weight.natAbs := by rw [u64_toNat nonneg (by omega)]; omega
  have last : ((s.poids.pushBack (i64 (weight' * if value' then 1 else -1))).size : Int) - 1 =
      ((s.solver.nVar + 1 : Nat) : Int) := by
    simp only [WeightVector.size, WeightVector.pushBack, List.length_append, List.length_singleton] at size ⊢
    omega
  simp only [EvalMaxSAT.newSoftVar, split, word, last, softLiteral, ← abs.2, Solver_cadical.newVar,
    EvalMaxSAT.putWeight, EvalMaxSAT.grow, WeightVector.set, cast, List.append_nil,
    List.replicate_one]
  cases value'
  · have : i64 (weight' * -1) = i64 (-weight') := by rw [Int.mul_neg, Int.mul_one]
    simp only [Bool.false_eq_true, if_false, this, Int.natAbs_neg, Int.natAbs_natCast, pushed,
      WeightVector.pushBack, neg_mul, one_mul]
    rw [if_pos (by omega)]
  · have : i64 (weight' * 1) = weight' := by
      rw [Int.mul_one, i64_of_range (by omega) (by omega)]
    simp only [if_true, this, Int.natAbs_natCast, pushed, WeightVector.pushBack, one_mul]
    rw [if_neg (by omega)]

theorem softLiteral_natAbs (value : Bool) (weight : Int) :
    (softLiteral s value weight).natAbs = s.solver.nVar + 1 := by
  unfold softLiteral
  split <;> omega

theorem newSoftVar_spec (wf : Wf ws s) (value : Bool) {w : Int} (nonzero : w ≠ 0)
    (range : w.natAbs < 2 ^ 63) :
    Wf ws (s.newSoftVar value w).2 ∧
      (s.newSoftVar value w).2.potential = s.potential + w.natAbs ∧
      ∀ γ, (s.newSoftVar value w).2.owed γ = s.owed γ +
        if γ (softLiteral s value w) then w.natAbs else 0 := by
  rw [newSoftVar_eq wf value range]
  simp only
  have size := softLiteral_natAbs (s := s) value w
  generalize softLiteral s value w = l at size
  have wfGrown : Wf ws (s.grow 1 []) := wf_grow wf (by simp)
  have bound : l.natAbs ≤ (s.grow 1 []).solver.nVar := by
    simp only [EvalMaxSAT.grow]; omega
  have unweighted : s.weight l = 0 := by
    by_contra weighted
    have := (wf.weighted_inside weighted).2
    omega
  have balance : ∀ γ, ((s.grow 1 []).putWeight l w.natAbs
      (s.mapWeight2Assum.insertLit w.natAbs l)).owed γ = s.owed γ +
        if γ l then w.natAbs else 0 := by
    intro γ
    have put := owed_put (m := s.mapWeight2Assum.insertLit w.natAbs l)
      (x := w.natAbs) wfGrown γ (by omega) (by omega) bound
    rw [weight_grow, unweighted, charge_zero, owed_grow, charge_pos (by omega)] at put
    simp only [Int.toNat_natCast, Nat.add_zero] at put
    exact put
  have potential : ((s.grow 1 []).putWeight l w.natAbs
      (s.mapWeight2Assum.insertLit w.natAbs l)).potential =
        s.potential + w.natAbs := by
    have all := balance everyLit
    rwa [show everyLit l = true from rfl, if_pos rfl] at all
  refine ⟨?_, potential, balance⟩
  refine wf_shift wfGrown ?_ (by omega) (by omega) bound ?_
  · rw [size]; exact plain_grow (plain_fresh wf (Nat.lt_succ_self _))
  · rw [weight_grow]
    have index := indexes_insert (x := w.natAbs) wf.indexed (wf.weight_neg l) (by omega)
      unweighted (by omega) (by omega)
    rwa [u64_of_nat (by omega)] at index

theorem newSoftVar_weight (wf : Wf ws s) (value : Bool) {w : Int}
    (range : w.natAbs < 2 ^ 63) : (s.newSoftVar value w).2.weight =
      reweigh s.weight (softLiteral s value w) w.natAbs := by
  have size := softLiteral_natAbs (s := s) value w
  have wfGrown : Wf ws (s.grow 1 []) := wf_grow wf (by simp)
  rw [newSoftVar_eq wf value range]
  simp only
  rw [weight_put wfGrown (by omega) (by omega) (by simp only [EvalMaxSAT.grow]; omega), weight_grow]

theorem newSoftVar_climbs (wf : Wf ws s) (value : Bool) {weight : Int}
    (range : weight.natAbs < 2 ^ 63) : Climbs 0 s (s.newSoftVar value weight).2 := by
  have size := softLiteral_natAbs (s := s) value weight
  refine climbs_same wf (Nat.le_succ _) rfl ?_
  intro c o x cell made
  have := wf.output_pos cell made
  rw [newSoftVar_weight wf value range, reweigh, if_neg (by omega), if_neg (by omega)]

theorem newSoftVar_solver (value : Bool) (weight : Int) : (s.newSoftVar value weight).2.solver =
    { s.solver with nVar := s.solver.nVar + 1 } := rfl

theorem newSoftVar_cards (value : Bool) (weight : Int) :
    (s.newSoftVar value weight).2.cards = s.cards := rfl

/-- A clause with its negated soft variable. -/
def EvalMaxSAT.relaxed (s : EvalMaxSAT K) (clause : Clause) (w : Int) : EvalMaxSAT K :=
  (s.newSoftVar true w).2.addHardClause (clause ++ [-((s.solver.nVar + 1 : Nat) : Int)])

section Relaxed
variable {clause : Clause}

theorem relaxed_grow (several : 2 ≤ clause.length) (within : Within s.solver.nVar clause) :
    Within (s.solver.nVar + 1) (clause ++ [-((s.solver.nVar + 1 : Nat) : Int)]) ∧
    s.relaxed clause w = (s.newSoftVar true w).2.grow 0
      [clause ++ [-((s.solver.nVar + 1 : Nat) : Int)]] := by
  have wide : Within (s.solver.nVar + 1) (clause ++ [-((s.solver.nVar + 1 : Nat) : Int)]) := by
    intro l mem
    rcases List.mem_append.mp mem with mem | mem
    · exact ⟨(within l mem).1, (within l mem).2.trans (Nat.le_succ _)⟩
    · simp only [List.mem_singleton] at mem
      subst mem
      omega
  refine ⟨wide, ?_⟩
  rw [EvalMaxSAT.relaxed, addHardClause_grow]
  · exact wide
  · simp only [List.length_append, List.length_singleton]; omega

theorem relaxed_spec (wf : Wf ws s) (several : 2 ≤ clause.length)
    (within : Within s.solver.nVar clause) (pos : 0 < w) (range : w < 2 ^ 63) :
    Wf ws (s.relaxed clause w) ∧ Adds clause w 0 s (s.relaxed clause w) ∧
      (s.relaxed clause w).potential = s.potential + w ∧
      (s.relaxed clause w).weight = reweigh s.weight ((s.solver.nVar + 1 : Nat) : Int) w ∧
      Climbs 0 s (s.relaxed clause w) := by
  obtain ⟨wide, eq⟩ := relaxed_grow (w := w) several within
  obtain ⟨wfNew, potential, owed⟩ := newSoftVar_spec (w := w) wf true (by omega)
    (by omega)
  have weights := newSoftVar_weight (w := w) wf true (by omega)
  have literal : softLiteral s true w = ((s.solver.nVar + 1 : Nat) : Int) := by
    simp only [softLiteral, if_neg (by omega : ¬ (w : Int) < 0), if_true]
  rw [literal, Int.natAbs_natCast] at owed weights
  rw [Int.natAbs_natCast] at potential
  have value : ∀ m : Assignment, falsified m ((s.solver.nVar + 1 : Nat) : Int) =
      !m (s.solver.nVar + 1) := by
    intro m
    rw [falsified, litTrue_natCast (Nat.succ_pos _)]
  have added : ∀ m : Assignment, Holds m (clause ++ [-((s.solver.nVar + 1 : Nat) : Int)]) ↔
      (m (s.solver.nVar + 1) = true → Holds m clause) := by
    intro m
    have neg : litTrue m (-((s.solver.nVar + 1 : Nat) : Int)) = !m (s.solver.nVar + 1) := by
      rw [litTrue_neg (by omega), litTrue_natCast (Nat.succ_pos _)]
    constructor
    · rintro ⟨l, mem, holds⟩ on
      rcases List.mem_append.mp mem with mem | mem
      · exact ⟨l, mem, holds⟩
      · simp only [List.mem_singleton] at mem
        subst mem
        rw [neg, on] at holds
        simp at holds
    · intro h
      cases on : m (s.solver.nVar + 1) with
      | true =>
        obtain ⟨l, mem, holds⟩ := h on
        exact ⟨l, List.mem_append_left _ mem, holds⟩
      | false => exact ⟨_, List.mem_append_right _ (List.mem_singleton_self _), by rw [neg, on]; rfl⟩
  rw [eq]
  have wfGrown : Wf ws ((s.newSoftVar true w).2.grow 0
      [clause ++ [-((s.solver.nVar + 1 : Nat) : Int)]]) :=
    wf_grow wfNew (by intro c mem; simp only [List.mem_singleton] at mem; subst mem; exact wide)
  refine ⟨wfGrown, ⟨Nat.le_succ _, List.subset_append_left _ _, fun v _ => ?_, ?_, ?_, ?_⟩, ?_,
    by rw [weight_grow]; exact weights, climbs_trans wf wfNew wfGrown
      (newSoftVar_climbs wf true (by omega)) (climbs_grow wfNew) fun l _ _ => by rw [weight_grow]⟩
  · unfold EvalMaxSAT.Plain
    change (∀ (c : Nat) o k, (s.newSoftVar true w).2.cards[c]? = some o → _) ↔ _
    rw [newSoftVar_cards]
  · rw [EvalMaxSAT.potential, owed_grow, Nat.add_zero]; exact Nat.le_of_eq potential
  · intro m models canonical
    have agree : AgreeUpTo s.solver.nVar m
        (assign m (s.solver.nVar + 1) (decide (Holds m clause))) :=
      assign_agree (Nat.lt_succ_self _)
    refine ⟨_, agree, ?_, canonical_agree wf agree canonical, ?_⟩
    · refine models_append.mpr ⟨(models_agree agree wf.within).mpr models, models_singleton.mpr ?_⟩
      rw [added, assign_self, holds_agree agree within]
      exact of_decide_eq_true
    · rw [owed_grow, owed, owed_agree wf agree, value, assign_self, penalty, Nat.add_zero]
      congr 1
      by_cases holds : Holds m clause <;> simp [holds]
  · intro m models
    have holds := (added m).mp (models _ (by simp [EvalMaxSAT.grow]))
    rw [owed_grow, owed, value, penalty, Nat.add_zero]
    cases on : m (s.solver.nVar + 1) with
    | true => simp [holds on]
    | false =>
      simp only [Bool.not_false, if_true]
      split <;> omega
  · rw [EvalMaxSAT.potential, owed_grow]; exact potential

end Relaxed

section Negated
variable {clause : Clause}

/-- What a clause of at least two literals and of negative weight adds: a variable of the
opposite weight that implies each of the literals. -/
def EvalMaxSAT.negated (s : EvalMaxSAT K) (clause : Clause) (w : Nat) : EvalMaxSAT K :=
  (s.newSoftVar true w).2.grow 0 (clause.map fun lit => [-((s.solver.nVar + 1 : Nat) : Int), lit])

theorem addPairs_eq {c : Clause} {x : Int} (nonzero : x ≠ 0) (bound : x.natAbs ≤ t.solver.nVar)
    (within : Within t.solver.nVar c) :
    c.foldl (fun s lit => s.addHardClause [x, lit]) t =
      t.grow 0 (c.map fun lit => [x, lit]) := by
  induction c generalizing t with
  | nil => exact (grow_zero t).symm
  | cons lit c ih =>
    have pair : Within t.solver.nVar [x, lit] := by
      intro l mem
      simp only [List.mem_cons, List.not_mem_nil, or_false] at mem
      rcases mem with rfl | rfl
      · exact ⟨nonzero, bound⟩
      · exact within l (by simp)
    have rest := ih (t := t.grow 0 [[x, lit]]) (by exact bound)
      (fun l mem => within l (by simp [mem]))
    rw [List.foldl_cons, addHardClause_grow pair (by simp), rest, grow_grow]
    rfl

theorem negated_spec (wf : Wf ws s) (within : Within s.solver.nVar clause) (pos : 0 < w)
    (range : w < 2 ^ 63) :
    Wf ws (s.negated clause w) ∧ (s.negated clause w).potential = s.potential + w ∧
      (∀ m, (s.negated clause w).owed (falsified m) = s.owed (falsified m) +
        if m (s.solver.nVar + 1) then 0 else w) ∧ Climbs 0 s (s.negated clause w) := by
  obtain ⟨wfNew, potential, owed⟩ := newSoftVar_spec (w := w) wf true (by omega) (by omega)
  have literal : softLiteral s true w = ((s.solver.nVar + 1 : Nat) : Int) := by
    simp only [softLiteral, if_neg (by omega : ¬ (w : Int) < 0), if_true]
  rw [literal, Int.natAbs_natCast] at owed
  rw [Int.natAbs_natCast] at potential
  have wfGrown : Wf ws (s.negated clause w) := by
    apply wf_grow wfNew
    intro c mem
    obtain ⟨l, inClause, rfl⟩ := List.mem_map.mp mem
    intro k memK
    simp only [List.mem_cons, List.not_mem_nil, or_false] at memK
    rw [newSoftVar_solver]
    rcases memK with rfl | rfl
    · simp only; omega
    · exact ⟨(within k inClause).1, by have := (within k inClause).2; simp only; omega⟩
  refine ⟨wfGrown, ?_, ?_, climbs_trans wf wfNew wfGrown (newSoftVar_climbs wf true (by omega))
    (climbs_grow wfNew) fun l _ _ => by rw [EvalMaxSAT.negated, weight_grow]⟩
  · rw [EvalMaxSAT.potential, EvalMaxSAT.negated, owed_grow]; exact potential
  · intro m
    rw [EvalMaxSAT.negated, owed_grow, owed, falsified, litTrue_natCast (Nat.succ_pos _)]
    cases m (s.solver.nVar + 1) <;> simp

end Negated

section AddWeight

theorem reweigh_neg {wt : Int → Int} {x : Int} (nonzero : lit ≠ 0) :
    reweigh wt (-lit) (-x) = reweigh wt lit x := by
  funext l
  simp only [reweigh, neg_neg]
  by_cases same : l = lit
  · rw [if_neg (by omega), if_pos same, if_pos same]
  · by_cases opposite : l = -lit
    · rw [if_pos opposite, if_neg same, if_pos opposite]
    · rw [if_neg opposite, if_neg same, if_neg same, if_neg opposite]

def unindex (wt : Int → Int) (lit : Int) (m : WeightMap) : WeightMap :=
  if 0 < wt lit then m.eraseLit (u64 (wt lit)) lit
  else if wt lit < 0 then m.eraseLit (u64 (wt (-lit))) (-lit) else m

def enindex (x : Int) (lit : Int) (m : WeightMap) : WeightMap :=
  if 0 < x then m.insertLit (u64 x) lit
  else if x < 0 then m.insertLit (u64 (-x)) (-lit) else m

theorem indexes_move {m : WeightMap} {wt : Int → Int} {x : Int} (index : Indexes m wt)
    (odd : ∀ l, wt (-l) = -wt l) (nonzero : lit ≠ 0) (old : (wt lit).natAbs < 2 ^ 63)
    (new : x.natAbs < 2 ^ 63) : Indexes (enindex x lit (unindex wt lit m)) (reweigh wt lit x) := by
  have without : Indexes (unindex wt lit m) (reweigh wt lit 0) := by
    unfold unindex
    rcases lt_trichotomy (wt lit) 0 with neg | zero | pos
    · have opposite := odd lit
      have := indexes_erase index (odd (-lit)) (by omega) (by omega) (by omega)
      rw [if_neg (by omega), if_pos neg, ← reweigh_neg nonzero]
      exact this
    · rw [if_neg (by omega), if_neg (by omega)]
      have := reweigh_self (odd lit)
      rw [zero] at this
      rw [this]; exact index
    · rw [if_pos pos]
      exact indexes_erase index (odd lit) nonzero pos (by omega)
  have here : reweigh wt lit 0 lit = 0 := by rw [reweigh, if_pos rfl]
  have there : reweigh wt lit 0 (-lit) = 0 := by
    rw [reweigh, if_neg (by omega), if_pos rfl]; rfl
  unfold enindex
  rcases lt_trichotomy x 0 with neg | zero | pos
  · rw [if_neg (by omega), if_pos neg, ← reweigh_reweigh wt lit 0 x, ← reweigh_neg nonzero]
    exact indexes_insert without (by rw [neg_neg, here, there]; rfl) (by omega) there (by omega)
      (by omega)
  · subst zero
    rw [if_neg (by omega), if_neg (by omega)]; exact without
  · rw [if_pos pos, ← reweigh_reweigh wt lit 0 x]
    exact indexes_insert without (by rw [here, there]; rfl) nonzero here pos (by omega)

/-- What the cost takes when weight `w` is put on a literal of weight `W`. -/
def common (W : Int) (w : Nat) : Nat := if W < 0 then min w (-W).toNat else 0

theorem charge_common {γ : Gauge} {W : Int} (opposite : γ (-lit) = !γ lit) :
    charge γ lit (W + w) + common W w = charge γ lit W + if γ lit then w else 0 := by
  simp only [charge, opposite, common]
  cases γ lit
  · simp only [Bool.not_false, Bool.false_eq_true, if_false, if_true]
    split <;> split <;> split <;> omega
  · simp only [Bool.not_true, Bool.false_eq_true, if_false, if_true]
    split <;> split <;> split <;> omega

theorem reindex_eq {x : Int} (weight : s.weight lit = x) (entry : s.cardOf lit.natAbs = none)
    (range : x.natAbs < 2 ^ 63) :
    s.reindex lit = { s with mapWeight2Assum := enindex x lit s.mapWeight2Assum } := by
  rw [EvalMaxSAT.reindex, enindex, weight]
  rcases lt_trichotomy x 0 with neg | zero | pos
  · rw [if_neg (by omega), if_neg (by omega), if_neg (by omega), if_pos neg,
      i64_of_range (by omega) (by omega)]
  · rw [if_pos zero, if_neg (by omega), if_neg (by omega), relax_none entry]
  · rw [if_neg (by omega), if_pos pos, if_pos pos]

theorem shiftWeight_eq (bounded : s.poids.Bounded) (nonzero : lit ≠ 0) (weighted : s.weight lit ≠ 0)
    (range : (s.weight lit + w).natAbs < 2 ^ 63) (small : w < 2 ^ 63) :
    s.shiftWeight lit w =
      (s.putWeight lit (s.weight lit + w) (unindex s.weight lit s.mapWeight2Assum)).withCost
        (if s.weight lit < 0 then u64 (s.cost + common (s.weight lit) w) else s.cost) := by
  have added : s.poids.add lit w = s.poids.set lit (s.weight lit + w) :=
    WeightVector.add_eq bounded (by omega) range
  have opposite : s.weight (-lit) = -s.weight lit := WeightVector.get_neg bounded nonzero
  rw [EvalMaxSAT.shiftWeight, unindex]
  rcases Int.lt_or_gt_of_ne weighted with neg | pos
  · have least : min (w : Int) (s.weight (-lit)) = (common (s.weight lit) w : Nat) := by
      rw [common, if_pos neg, opposite]; omega
    rw [if_neg (by omega), if_neg (by omega), if_pos neg, if_pos neg, added, least]
    rfl
  · rw [if_pos pos, if_pos pos, if_neg (by omega), added]
    rfl

theorem addPositiveWeight_eq (bounded : s.poids.Bounded) (entry : s.cardOf lit.natAbs = none)
    (nonzero : lit ≠ 0) (inside : lit.natAbs < s.poids.size) (pos : 0 < w)
    (range : (s.weight lit + w).natAbs < 2 ^ 63) (small : w < 2 ^ 63) :
    s.addPositiveWeight lit w =
      (s.putWeight lit (s.weight lit + w) (enindex (s.weight lit + w) lit
        (unindex s.weight lit s.mapWeight2Assum))).withCost
          (if s.weight lit < 0 then u64 (s.cost + common (s.weight lit) w) else s.cost) := by
  rw [EvalMaxSAT.addPositiveWeight]
  by_cases zero : s.weight lit = 0
  · rw [if_pos zero, zero, zero_add, unindex, zero, if_neg (by omega), if_neg (by omega), enindex,
      if_pos (by omega), if_neg (by omega)]
    rfl
  · rw [if_neg zero, shiftWeight_eq bounded nonzero zero range small]
    apply reindex_eq _ _ range
    · have put := WeightVector.get_set bounded range inside nonzero lit
      exact put.trans (if_pos rfl)
    · exact entry

structure AddWeightSpec (ws : List Int) (lit : Int) (w : Nat) (s t : EvalMaxSAT K) : Prop where
  wf : Wf ws t
  adds : Adds [lit] w (common (s.weight lit) w) s t
  cost : t.cost = if s.weight lit < 0 then u64 (s.cost + common (s.weight lit) w) else s.cost
  besides : t.besides = s.besides
  solver : t.solver = s.solver
  cards : t.cards = s.cards
  climbs : Climbs 0 s t

theorem addPositiveWeight_spec (wf : Wf ws s) (plain : s.Plain lit.natAbs) (nonzero : lit ≠ 0)
    (bound : lit.natAbs ≤ s.solver.nVar) (pos : 0 < w) (small : w < 2 ^ 63)
    (range : (s.weight lit + w).natAbs < 2 ^ 63) :
    AddWeightSpec ws lit w s (s.addPositiveWeight lit w) := by
  have old := wf.weight_range lit
  rw [addPositiveWeight_eq wf.poids_bounded (wf.plain_entry plain) nonzero (wf.inside bound) pos range
    small]
  have index := indexes_move (x := s.weight lit + w) wf.indexed wf.weight_neg nonzero old range
  generalize enindex (s.weight lit + w) lit (unindex s.weight lit s.mapWeight2Assum) = map at index
  have potential := potential_put (a := map) wf range nonzero bound
  have spent : (s.putWeight lit (s.weight lit + w) map).potential + common (s.weight lit) w ≤
      s.potential + w := by
    simp only [common]
    split <;> omega
  have balance : ∀ m, (s.putWeight lit (s.weight lit + w) map).owed (falsified m) +
      common (s.weight lit) w = s.owed (falsified m) + penalty [lit] w m := by
    intro m
    have put := owed_put (m := map) wf (falsified m) range nonzero bound
    have opposite : falsified m (-lit) = !falsified m lit := by
      simp only [falsified, litTrue_neg nonzero]
    have shared := charge_common (w := w) (W := s.weight lit) opposite
    rw [penalty_unit]
    omega
  have shifted := wf_shift wf plain range nonzero bound index
  refine ⟨wf_withCost shifted _, ⟨Nat.le_refl _, List.Subset.refl _, fun _ _ => Iff.rfl, spent, ?_, ?_⟩,
    rfl, rfl, rfl, rfl, climbs_congr (climbs_plain (m := map) wf plain range nonzero bound)
      rfl rfl rfl rfl rfl rfl⟩
  · intro m models canonical
    exact ⟨m, agree_refl _ m, models, canonical, balance m⟩
  · intro m _
    exact Nat.le_of_eq (balance m).symm

end AddWeight
end EvalMaxSat
