import EvalMaxSat.Relaxing

/-!
Hard clauses. A unit clause on a literal that matters to the objective takes its weight
away: nothing is owed for it any more, or the cost has gone up by it.
-/
namespace EvalMaxSat
open Literals OrderedContainers LawfulSink

variable {K : Type} {ws : List Int} {s t : EvalMaxSAT K} {lit : Int}

def EvalMaxSAT.withCost (s : EvalMaxSAT K) (c : Nat) : EvalMaxSAT K := { s with cost := c }

theorem wf_withCost (wf : Wf ws s) (c : Nat) : Wf ws (s.withCost c) :=
  wf_congr wf rfl rfl rfl rfl rfl rfl rfl

theorem simOn_withCost {φ : Assignment → Prop} {less : Gauge → Nat} (sim : SimOn φ less s t)
    (c : Nat) : SimOn φ less s (t.withCost c) :=
  ⟨sim.vars, sim.clauses, sim.plain, sim.potential, sim.forward, sim.backward⟩

/-- What is owed for one literal, given that it is true. -/
def EvalMaxSAT.unitCharge (s : EvalMaxSAT K) (lit : Int) (γ : Gauge) : Nat :=
  charge γ lit (s.weight lit)

theorem sim_putZero {map : WeightMap} (wf : Wf ws s) (nonzero : lit ≠ 0)
    (bound : lit.natAbs ≤ s.solver.nVar) : Sim (s.unitCharge lit) s (s.putWeight lit 0 map) :=
  sim_of_owed rfl rfl rfl fun γ => by
    have := owed_put (m := map) (x := 0) wf γ (by omega) nonzero bound
    rwa [charge_zero, Nat.add_zero] at this

theorem set_zero_neg (v : WeightVector) : v.set (-lit) 0 = v.set lit 0 := by
  simp only [WeightVector.set, Int.natAbs_neg]
  have : i64 (-0) = 0 := by decide
  rw [this]
  simp

/-- The state after the weight of a falsified soft literal has become cost. -/
def EvalMaxSAT.payUnit (s : EvalMaxSAT K) (lit : Int) : EvalMaxSAT K :=
  (s.putWeight lit 0 (s.mapWeight2Assum.eraseLit (u64 (s.weight (-lit))) (-lit))).withCost
    (u64 (s.cost + s.weight (-lit)))

theorem payUnit_spec (wf : Wf ws s) (neg : s.weight lit < 0) :
    Wf (if (s.cardOf lit.natAbs).isSome then -lit :: ws else ws) (s.payUnit lit) ∧
      Sim (s.unitCharge lit) s (s.payUnit lit) := by
  have soft : 0 < s.weight (-lit) := by rw [wf.weight_neg]; omega
  obtain ⟨nonzero, bound⟩ := wf.weighted_inside (by omega : s.weight lit ≠ 0)
  have range := wf.weight_range (-lit)
  have index := indexes_erase wf.indexed (wf.weight_neg (-lit)) (by omega) soft (by omega)
  have lower := wf_lower wf soft (Int.le_refl 0) (by omega) index
  simp only [true_and, Int.natAbs_neg] at lower
  have same : s.putWeight (-lit) 0 (s.mapWeight2Assum.eraseLit (u64 (s.weight (-lit))) (-lit)) =
      s.putWeight lit 0 (s.mapWeight2Assum.eraseLit (u64 (s.weight (-lit))) (-lit)) := by
    simp only [EvalMaxSAT.putWeight, set_zero_neg]
  rw [same] at lower
  exact ⟨wf_withCost lower _, simOn_withCost (sim_putZero wf nonzero bound) _⟩

theorem raise_putZero {n v : Nat} {cs : Cnf} {e : LitCard} {o : CardObject}
    {card : CardIncremental_Lazy} (inside : lit.natAbs < s.poids.size) (ne : v ≠ lit.natAbs) :
    { s.raise n cs e o v card with poids := (s.raise n cs e o v card).poids.set lit 0 } =
      EvalMaxSAT.raise { s with poids := s.poids.set lit 0 } n cs e o v card := by
  have lists : ∀ a b : Int, ((s.poids.weight ++ List.replicate n 0).set v a).set lit.natAbs b =
      ((s.poids.weight.set lit.natAbs b) ++ List.replicate n 0).set v a := by
    intro a b
    rw [List.set_comm _ _ ne, List.set_append_left _ _ inside]
  simp only [EvalMaxSAT.raise, EvalMaxSAT.install, EvalMaxSAT.grow, WeightVector.set,
    Int.natAbs_neg, Int.natAbs_natCast, lists]

theorem clearUnit_neg_none (neg : s.weight lit < 0) (entry : s.cardOf lit.natAbs = none) :
    s.clearUnit lit = s.payUnit lit := by
  rw [EvalMaxSAT.clearUnit, if_neg (by omega), if_pos neg]
  simp only
  rw [relax_none (by exact entry)]
  rfl

theorem clearUnit_neg_some {e : LitCard} {o : CardObject} (wf : Wf ws s)
    (neg : s.weight lit < 0) (entry : s.cardOf lit.natAbs = some e)
    (cell : s.cards[e.card]? = some o) (h : Heads (s.payUnit lit) ws lit.natAbs e o) :
    s.clearUnit lit = s.payUnit lit ∧ o.card.inputs.length ≤ o.level + 1 ∨
      o.level + 1 < o.card.inputs.length ∧ ∃ n cs v card,
        o.card.AtMostSpec (o.level + 1) (s.payUnit lit) v card ((s.payUnit lit).grow n cs) ∧
        s.clearUnit lit = (s.payUnit lit).raise n cs e o v card := by
  have ok := wf.cards _ _ cell
  obtain ⟨nonzero, bound⟩ := wf.weighted_inside (by omega : s.weight lit ≠ 0)
  have inside := wf.inside bound
  -- the source relaxes before it clears the weight
  let u : EvalMaxSAT K := { s with
    mapWeight2Assum := s.mapWeight2Assum.eraseLit (u64 (s.weight (-lit))) (-lit)
    cost := u64 (s.cost + s.weight (-lit)) }
  have clear : s.clearUnit lit =
      { (u.relax lit).2 with poids := (u.relax lit).2.poids.set lit 0 } := by
    rw [EvalMaxSAT.clearUnit, if_neg (by omega), if_pos neg]
  have relaxed : u.relax lit = ((u.nextLevel e o).1, (u.nextLevel e o).2.resetEntry lit) :=
    relax_some (by exact entry) (by exact cell)
  by_cases more : o.level + 1 < o.card.inputs.length
  · right
    refine ⟨more, ?_⟩
    obtain ⟨n, cs, v, card, spec, eq⟩ := nextLevel_raise (s := u) (e := e) (o := o)
      wf.poids_bounded wf.poidsSize wf.within
      (CardIncremental_Lazy.ready_later ok.ready (Nat.le_refl _) (List.Subset.refl _))
      h.entry_eq.1 ok.weight_lt more (by
        intro n cs v card spec
        have spec' := atMostSpec_congr (s := u) (t := s.payUnit lit) rfl spec
        exact (h.next_free spec').2.1)
    have spec' := atMostSpec_congr (s := u) (t := s.payUnit lit) rfl spec
    have free := (h.next_free spec').2.1
    have ne : v ≠ lit.natAbs := by
      rintro rfl
      rw [h.entry] at free
      simp at free
    have inst := h.installs more spec'
    refine ⟨n, cs, v, card, spec', ?_⟩
    have kept : (u.raise n cs e o v card).resetEntry lit = u.raise n cs e o v card := by
      have weight : (u.raise n cs e o v card).weight lit = s.weight lit := by
        have grown : (u.grow n cs).poids.Bounded := WeightVector.bounded_append wf.poids_bounded n
        have small := ok.weight_lt
        have pos := spec.positive
        have get := WeightVector.get_set (k := -(v : Int)) (w := o.initialWeight) grown (by omega)
          (by
            have := spec.bound
            have size := wf.poidsSize
            simp only [vars_eq, EvalMaxSAT.grow] at this
            simp only [WeightVector.size] at size
            simp only [EvalMaxSAT.grow, WeightVector.size, List.length_append,
              List.length_replicate, Int.natAbs_neg, Int.natAbs_natCast]
            have : u.solver.nVar = s.solver.nVar := rfl
            have : u.poids = s.poids := rfl
            rw [this]
            omega) (by omega) lit
        rw [if_neg (by omega), if_neg (by omega)] at get
        refine get.trans ?_
        exact congrFun (weight_grow (s := s) (n := n) (f := cs)) lit
      rw [EvalMaxSAT.resetEntry, weight, if_neg (by omega)]
    rw [clear, relaxed, eq, kept]
    exact raise_putZero inside ne
  · left
    refine ⟨?_, by omega⟩
    have maxVars := ok.ready.maxVars
    have final : u.nextLevel e o = (none, u) := by
      apply nextLevel_final (by exact cell)
      have := h.atLevel
      omega
    rw [clear, relaxed, final]
    have kept : u.resetEntry lit = u := by
      rw [EvalMaxSAT.resetEntry, if_neg]
      change ¬ s.weight lit = 0
      omega
    rw [kept]
    rfl

/-- No literal that is the output of no cardinality turns against its sign. -/
def Steady (s t : EvalMaxSAT K) : Prop :=
  ∀ l : Int, l.natAbs ≤ s.solver.nVar → t.Plain l.natAbs → 0 ≤ s.weight l → 0 ≤ t.weight l

theorem steady_trans {u : EvalMaxSAT K} (first : Steady s t) (second : Steady t u)
    (vars : s.solver.nVar ≤ t.solver.nVar)
    (plain : ∀ v ≤ t.solver.nVar, u.Plain v ↔ t.Plain v) : Steady s u :=
  fun l bound plain_l nonneg => second l (bound.trans vars) plain_l
    (first l bound ((plain _ (bound.trans vars)).mp plain_l) nonneg)

theorem steady_gives {new : Option Int} (gives : Gives new s t) : Steady s t := by
  intro l _ plain nonneg
  cases new with
  | none => rw [show t.weight = s.weight from gives]; exact nonneg
  | some k =>
    obtain ⟨_, _, output, x, _, _, eq⟩ := gives
    rw [eq, reweigh, if_neg, if_neg]
    · exact nonneg
    · rintro rfl; rw [Int.natAbs_neg] at plain; exact output plain
    · rintro rfl; exact output plain

theorem steady_soft {ks : List Int} (wf : Wf ws s) (wf' : Wf ks t) (steady : Steady s t)
    (outputs : ∀ v ≤ s.solver.nVar, t.Plain v ↔ s.Plain v) {l : Int} (soft : 0 < s.weight l) :
    0 ≤ t.weight l := by
  obtain ⟨_, bound⟩ := wf.weighted_inside (by omega : s.weight l ≠ 0)
  by_cases plain : t.Plain l.natAbs
  · exact steady l bound plain (by omega)
  · have opposite : ∀ {js : List Int} {u : EvalMaxSAT K}, Wf js u → ¬ u.Plain l.natAbs →
        u.weight (l.natAbs : Int) ≤ 0 := by
      intro js u wf output
      simp only [EvalMaxSAT.Plain, not_forall, not_not] at output
      obtain ⟨c, o, k, cell, made⟩ := output
      exact ((wf.cards c o cell).outputs k _ made).1
    have here := opposite wf (fun p => plain ((outputs _ bound).mpr p))
    have there := opposite wf' plain
    have negative : l = -(l.natAbs : Int) := by
      rcases Int.natAbs_eq l with same | same
      · rw [← same] at here; omega
      · exact same
    have := wf'.weight_neg (l.natAbs : Int)
    have := congrArg t.weight negative
    omega

/-- Only `lit` and literals without weight have another weight now. -/
def OthersKept (lit : Int) (s t : EvalMaxSAT K) : Prop :=
  ∀ l : Int, l.natAbs ≠ lit.natAbs → s.weight l ≠ 0 → t.weight l = s.weight l

theorem othersKept_put {x : Int} {m : WeightMap} (wf : Wf ws s) (range : x.natAbs < 2 ^ 63)
    (nonzero : lit ≠ 0) (bound : lit.natAbs ≤ s.solver.nVar) :
    OthersKept lit s (s.putWeight lit x m) := by
  intro l ne _
  rw [weight_put wf range nonzero bound, reweigh, if_neg (by rintro rfl; exact ne rfl),
    if_neg (by rintro rfl; omega)]

theorem gives_kept {new : Option Int} (wf : Wf ws s) (gives : Gives new s t) {l : Int}
    (weighted : s.weight l ≠ 0) : t.weight l = s.weight l := by
  cases new with
  | none =>
    have same : t.weight = s.weight := gives
    rw [same]
  | some k =>
    obtain ⟨unweighted, _, _, x, _, _, eq⟩ := gives
    rw [eq, reweigh, if_neg (by rintro rfl; exact weighted unweighted), if_neg]
    rintro rfl
    have := wf.weight_neg k
    omega

theorem climbs_payUnit (wf : Wf ws s) (neg : s.weight lit < 0) : Climbs 0 s (s.payUnit lit) := by
  obtain ⟨nonzero, bound⟩ := wf.weighted_inside (by omega : s.weight lit ≠ 0)
  have opposite := wf.weight_neg lit
  have lower := climbs_lower (l := -lit) (x := 0)
    (m := s.mapWeight2Assum.eraseLit (u64 (s.weight (-lit))) (-lit)) wf (Int.le_refl 0) (by omega)
    (by omega) (by rw [Int.natAbs_neg]; exact bound)
  refine climbs_congr lower rfl rfl rfl rfl ?_ rfl
  change (s.poids.set lit 0).get = (s.poids.set (-lit) 0).get
  rw [set_zero_neg]

theorem clearUnit_neg (wf : Wf ws s) (neg : s.weight lit < 0) :
    Wf ws (s.clearUnit lit) ∧ Sim (s.unitCharge lit) s (s.clearUnit lit) ∧
      (s.clearUnit lit).cost = u64 (s.cost + s.weight (-lit)) ∧
      (s.clearUnit lit).besides = s.besides ∧ OthersKept lit s (s.clearUnit lit) ∧
      Climbs 0 s (s.clearUnit lit) := by
  obtain ⟨nonzero, bound⟩ := wf.weighted_inside (by omega : s.weight lit ≠ 0)
  obtain ⟨wfPaid, sim⟩ := payUnit_spec wf neg
  have paid : OthersKept lit s (s.payUnit lit) := othersKept_put
    (m := s.mapWeight2Assum.eraseLit (u64 (s.weight (-lit))) (-lit)) wf (by decide) nonzero bound
  have fallen := climbs_payUnit wf neg
  cases entry : s.cardOf lit.natAbs with
  | none =>
    rw [entry] at wfPaid
    rw [clearUnit_neg_none neg entry]
    exact ⟨wfPaid, sim, rfl, rfl, paid, fallen⟩
  | some e =>
    rw [entry] at wfPaid
    simp only [Option.isSome_some, if_true] at wfPaid
    obtain ⟨u, f, o, eq, h⟩ := heads_of_wf wfPaid
    have var : u = lit.natAbs := by omega
    subst var
    have : e = f := Option.some.inj (entry.symm.trans h.entry)
    subst this
    rcases clearUnit_neg_some wf neg entry h.cell h with ⟨same, final⟩ |
      ⟨more, n, cs, v, card, spec, eq⟩
    · rw [same]
      exact ⟨h.wf_final final, sim, rfl, rfl, paid, fallen⟩
    · rw [eq]
      obtain ⟨wf', sim', gives, climbs⟩ := h.raise_spec more spec
      refine ⟨wf', simOn_congr (sim_trans sim sim' (fun _ _ _ => rfl)) (fun γ => rfl), rfl, rfl, ?_,
        climbs_trans wf h.wf wf' fallen climbs fun l _ weighted => gives_kept h.wf gives weighted⟩
      intro l ne weighted
      have kept := paid l ne weighted
      rw [gives_kept h.wf gives (by rw [kept]; exact weighted), kept]

theorem clearUnit_pos (pos : 0 < s.weight lit) :
    s.clearUnit lit =
      s.putWeight lit 0 (s.mapWeight2Assum.eraseLit (u64 (s.weight lit)) lit) := by
  rw [EvalMaxSAT.clearUnit, if_neg (by omega), if_neg (by omega)]
  rfl

theorem addHardClause_grow {c : Clause} (within : Within s.solver.nVar c)
    (notUnit : c.length ≠ 1) : s.addHardClause c = s.grow 0 [c] := by
  rw [← solver_addClause_eq within]
  match c, notUnit with
  | [], _ => rfl
  | _ :: _ :: _, _ => rfl

theorem clearUnit_nVar (wf : Wf ws s) (nonzero : lit ≠ 0) (bound : lit.natAbs ≤ s.solver.nVar) :
    Within (s.clearUnit lit).solver.nVar [lit] := by
  have grown : s.solver.nVar ≤ (s.clearUnit lit).solver.nVar := by
    by_cases neg : s.weight lit < 0
    · exact (clearUnit_neg wf neg).2.1.vars
    · by_cases zero : s.weight lit = 0
      · rw [EvalMaxSAT.clearUnit, if_pos zero]
      · rw [clearUnit_pos (by omega)]; exact Nat.le_refl _
  intro l mem
  simp at mem
  subst mem
  exact ⟨nonzero, bound.trans grown⟩

structure UnitSpec (ws : List Int) (lit : Int) (s t : EvalMaxSAT K) : Prop where
  wf : Wf ws t
  sim : SimOn (Holds · [lit]) (s.unitCharge lit) s t
  fixed : [lit] ∈ t.solver.clauses
  cost : t.cost = if s.weight lit < 0 then u64 (s.cost - s.weight lit) else s.cost
  besides : t.besides = s.besides
  kept : OthersKept lit s t
  climbs : Climbs 0 s t
  /-- Where the literal does not lose against its weight, no other weight changes. -/
  lost : 0 ≤ s.weight lit → t.weight = reweigh s.weight lit 0 ∧
    t.mapWeight2Assum = if s.weight lit = 0 then s.mapWeight2Assum
      else s.mapWeight2Assum.eraseLit (u64 (s.weight lit)) lit

theorem addUnit_spec (wf : Wf ws s) (nonzero : lit ≠ 0) (bound : lit.natAbs ≤ s.solver.nVar) :
    UnitSpec ws lit s (s.addHardClause [lit]) := by
  have grow : s.addHardClause [lit] = (s.clearUnit lit).grow 0 [[lit]] := by
    rw [← solver_addClause_eq (clearUnit_nVar wf nonzero bound)]
    rfl
  have within : ∀ c ∈ [[lit]], Within ((s.clearUnit lit).solver.nVar + 0) c := by
    intro c mem
    simp at mem
    subst mem
    exact clearUnit_nVar wf nonzero bound
  have fixed : [lit] ∈ ((s.clearUnit lit).grow 0 [[lit]]).solver.clauses := by
    simp [EvalMaxSAT.grow]
  have balance {vs : List Int} {u : EvalMaxSAT K} (wfU : Wf vs u)
      (sim : Sim (s.unitCharge lit) s u) : SimOn (Holds · [lit]) (s.unitCharge lit) s
      (u.grow 0 [[lit]]) := by
    have more : SimOn (Holds · [lit]) (fun _ => 0) u (u.grow 0 [[lit]]) :=
      simOn_addClause wfU [lit]
    refine simOn_congr (simOn_trans (simOn_weaken sim (fun _ _ _ => trivial)) more
      (fun _ _ _ => rfl) ?_) (fun γ => rfl)
    intro m k agree holds
    have inside : Within s.solver.nVar [lit] := by
      intro l mem
      simp at mem
      subst mem
      exact ⟨nonzero, bound⟩
    exact (holds_agree agree inside).mpr holds
  rw [grow]
  rcases lt_trichotomy (s.weight lit) 0 with neg | zero | pos
  · obtain ⟨wfU, sim, cost, besides, kept, climbs⟩ := clearUnit_neg wf neg
    have wfT := wf_grow wfU within
    refine ⟨wfT, balance wfU sim, fixed, ?_, besides, ?_,
      climbs_trans wf wfU wfT climbs (climbs_grow wfU) fun l _ _ => by rw [weight_grow],
      fun nonneg => by omega⟩
    · rw [if_pos neg]
      change (s.clearUnit lit).cost = _
      rw [cost, wf.weight_neg]; rfl
    · intro l ne weighted
      rw [weight_grow]; exact kept l ne weighted
  · have same : s.clearUnit lit = s := by rw [EvalMaxSAT.clearUnit, if_pos zero]
    rw [same] at within fixed ⊢
    refine ⟨wf_grow wf within, balance wf ?_, fixed, by rw [if_neg (by omega)]; rfl, rfl, ?_,
      climbs_grow wf, ?_⟩
    · refine simOn_congr (sim_refl s) (fun γ => ?_)
      rw [EvalMaxSAT.unitCharge, zero, charge_zero]
    · intro l _ _
      rw [weight_grow]
    · intro _
      refine ⟨?_, by rw [if_pos zero]; rfl⟩
      have self := reweigh_self (wf.weight_neg lit)
      rw [zero] at self
      rw [weight_grow, self]
  · have index := indexes_erase wf.indexed (wf.weight_neg lit) nonzero pos
      (by have := wf.weight_range lit; omega)
    have lower := wf_lower wf pos (Int.le_refl 0) (by omega) index
    rw [clearUnit_pos pos] at within fixed ⊢
    have wfT := wf_grow lower within
    refine ⟨?_, balance lower (sim_putZero wf nonzero bound), fixed, by rw [if_neg (by omega)]; rfl, rfl,
      ?_, climbs_trans wf lower wfT (climbs_lower wf (Int.le_refl 0) (by omega) nonzero bound)
        (climbs_grow lower) (fun l _ _ => by rw [weight_grow]), ?_⟩
    · have grown := wfT
      split at grown
      · exact wf_fixed grown fixed
      · exact grown
    · intro l ne weighted
      rw [weight_grow]
      exact othersKept_put wf (by decide) nonzero bound l ne weighted
    · intro _
      refine ⟨?_, by rw [if_neg (by omega)]; rfl⟩
      rw [weight_grow, weight_put wf (by decide) nonzero bound]

theorem unitCharge_true {m : Assignment} (wf : Wf ws s) (true_lit : litTrue m lit = true) :
    s.unitCharge lit (falsified m) = (-s.weight lit).toNat := by
  by_cases zero : lit = 0
  · subst zero; rw [EvalMaxSAT.unitCharge, wf.zero]; simp
  · simp only [EvalMaxSAT.unitCharge, charge, falsified, litTrue_neg zero, true_lit]
    simp only [Bool.not_true, Bool.not_false, if_true]
    split
    · simp; omega
    · rfl

theorem unitCharge_every : s.unitCharge lit everyLit = (s.weight lit).natAbs := charge_every

end EvalMaxSat
