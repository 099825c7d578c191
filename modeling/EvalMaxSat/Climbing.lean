import EvalMaxSat.Growing

/-!
How a cardinality moves through its levels: between two states it stays where it is and its
level weighs no more than before, or it goes one level up and the new level has its weight.
-/
namespace EvalMaxSat
open Literals OrderedContainers LawfulSink

variable {K : Type} {ws ks js : List Int} {s t u : EvalMaxSAT K} {n k : Nat} {o p q : CardObject}

/-- The current level of `p` has the whole weight of the cardinality. -/
def Reached (t : EvalMaxSAT K) (p : CardObject) : Prop :=
  ∃ x, p.card.output p.level = some x ∧ t.weight (-x) = p.initialWeight

/-- The level of `o` is still the current one, and weighs no more. -/
def Settled (s t : EvalMaxSAT K) (o : CardObject) : Prop :=
  ∃ x, o.card.output o.level = some x ∧ t.weight (-x) ≤ s.weight (-x)

/-- The cardinality `o` of `s` is `p` in `t`. -/
structure Climbed (s t : EvalMaxSAT K) (o p : CardObject) : Prop where
  weight : p.initialWeight = o.initialWeight
  inputs : p.card.inputs = o.card.inputs
  outputs : ∀ k x, o.card.output k = some x → p.card.output k = some x
  fresh : ∀ k x, p.card.output k = some x → o.card.output k = some x ∨ s.solver.nVar < x.natAbs
  level : (p.level = o.level ∧ Settled s t o) ∨ (p.level = o.level + 1 ∧ Reached t p)

structure Born (s t : EvalMaxSAT K) (p : CardObject) : Prop where
  fresh : ∀ k x, p.card.output k = some x → s.solver.nVar < x.natAbs
  first : p.level = 1
  reached : Reached t p

/-- `t` has at most `n` cardinalities more than `s`. -/
structure Climbs (n : Nat) (s t : EvalMaxSAT K) : Prop where
  vars : s.solver.nVar ≤ t.solver.nVar
  length : t.cards.length ≤ s.cards.length + n
  old : ∀ (c : Nat) o, s.cards[c]? = some o → ∃ p, t.cards[c]? = some p ∧ Climbed s t o p
  new : ∀ (c : Nat) p, s.cards[c]? = none → t.cards[c]? = some p → Born s t p

theorem climbs_same (wf : Wf ws s) (vars : s.solver.nVar ≤ t.solver.nVar) (cards : t.cards = s.cards)
    (falls : ∀ (c : Nat) o x, s.cards[c]? = some o → o.card.output o.level = some x →
      t.weight (-x) ≤ s.weight (-x)) : Climbs 0 s t := by
  refine ⟨vars, by rw [cards]; exact Nat.le_refl _, ?_, ?_⟩
  · intro c o cell
    obtain ⟨x, made, _⟩ := (wf.cards c o cell).last
    exact ⟨o, by rw [cards]; exact cell, rfl, rfl, fun _ _ h => h, fun _ _ h => Or.inl h,
      Or.inl ⟨rfl, x, made, falls c o x cell made⟩⟩
  · intro c p absent cell
    rw [cards, absent] at cell
    simp at cell

theorem climbs_refl (wf : Wf ws s) : Climbs 0 s s :=
  climbs_same wf (Nat.le_refl _) rfl fun _ _ _ _ _ => Int.le_refl _

theorem climbs_mono (h : Climbs n s t) (le : n ≤ k) : Climbs k s t :=
  ⟨h.vars, h.length.trans (Nat.add_le_add_left le _), h.old, h.new⟩

theorem climbs_congr {u v : EvalMaxSAT K} (h : Climbs n s t) (varsS : u.solver.nVar = s.solver.nVar)
    (weightS : u.weight = s.weight) (cardsS : u.cards = s.cards)
    (varsT : v.solver.nVar = t.solver.nVar) (weightT : v.weight = t.weight)
    (cardsT : v.cards = t.cards) : Climbs n u v := by
  refine ⟨by rw [varsS, varsT]; exact h.vars, by rw [cardsS, cardsT]; exact h.length, ?_, ?_⟩
  · intro c o cell
    obtain ⟨p, cell', climbed⟩ := h.old c o (by rw [← cardsS]; exact cell)
    refine ⟨p, by rw [cardsT]; exact cell', climbed.weight, climbed.inputs, climbed.outputs, ?_, ?_⟩
    · rw [varsS]; exact climbed.fresh
    · simp only [Settled, Reached, weightS, weightT]; exact climbed.level
  · intro c p absent cell
    obtain ⟨fresh, first, reached⟩ := h.new c p (by rw [← cardsS]; exact absent)
      (by rw [← cardsT]; exact cell)
    exact ⟨by rw [varsS]; exact fresh, first, by simp only [Reached, weightT]; exact reached⟩

theorem weight_of_fresh (wf : Wf ws s) {x : Int} (fresh : s.solver.nVar < x.natAbs) :
    s.weight (-x) = 0 := by
  by_contra weighted
  have := (wf.weighted_inside weighted).2
  rw [Int.natAbs_neg] at this
  omega

theorem weight_of_later (wf : Wf ws s) {c : Nat} {x : Int} (cell : s.cards[c]? = some o)
    (climbed : Climbed s t o p) (up : p.level = o.level + 1)
    (made : p.card.output p.level = some x) : s.weight (-x) = 0 := by
  rcases climbed.fresh _ _ made with old | fresh
  · have atLevel := ((wf.cards c o cell).outputs _ _ old).2
    have opposite := wf.weight_neg x
    by_contra weighted
    have := (atLevel (by omega)).1
    omega
  · exact weight_of_fresh wf fresh

/-- A level that has just got its weight is not passed before it is taken away again. -/
theorem reached_stays {c : Nat} (wf : Wf ws u) (cell : u.cards[c]? = some q) (pos : 0 < p.initialWeight)
    (reached : Reached t p) (kept : ∀ x, p.card.output p.level = some x → u.weight (-x) = t.weight (-x))
    (climbed : Climbed t u p q) : q.level = p.level ∧ Reached u q := by
  obtain ⟨x, made, weight⟩ := reached
  have still := kept x made
  have made' := climbed.outputs _ _ made
  have opposite := wf.weight_neg x
  have atLevel := (((wf.cards c q cell).outputs _ _ made').2 (by omega)).1
  refine ⟨atLevel.symm, x, by rw [← atLevel]; exact made', ?_⟩
  rw [still, weight, climbed.weight]

theorem climbed_trans {c : Nat} (wf : Wf ws s) (wf' : Wf ks u) (cell : s.cards[c]? = some o)
    (cell' : u.cards[c]? = some q) (vars : s.solver.nVar ≤ t.solver.nVar)
    (keep : ∀ l, s.weight l = 0 → t.weight l ≠ 0 → u.weight l = t.weight l)
    (first : Climbed s t o p) (second : Climbed t u p q) : Climbed s u o q := by
  refine ⟨second.weight.trans first.weight, second.inputs.trans first.inputs,
    fun k x made => second.outputs k x (first.outputs k x made), ?_, ?_⟩
  · intro k x made
    rcases second.fresh k x made with old | fresh
    · exact first.fresh k x old
    · exact Or.inr (vars.trans_lt fresh)
  · rcases first.level with ⟨same, x, made, falls⟩ | ⟨up, reached⟩
    · rcases second.level with ⟨same', y, made', falls'⟩ | ⟨up', reached'⟩
      · have equal : x = y := by
          have := first.outputs _ _ made
          rw [same, this] at made'
          exact Option.some.inj made'
        subst equal
        exact Or.inl ⟨same'.trans same, x, made, falls'.trans falls⟩
      · exact Or.inr ⟨by omega, reached'⟩
    · have pos : 0 < p.initialWeight := by
        rw [first.weight]; exact (wf.cards c o cell).weight_pos
      have kept : ∀ x, p.card.output p.level = some x → u.weight (-x) = t.weight (-x) := by
        intro x made
        obtain ⟨y, made', weight⟩ := reached
        have : y = x := Option.some.inj (made'.symm.trans made)
        subst this
        exact keep _ (weight_of_later wf cell first up made) (by omega)
      obtain ⟨level, reached'⟩ := reached_stays wf' cell' pos reached kept second
      exact Or.inr ⟨by omega, reached'⟩

/-- One change after another, where the second leaves alone what got weight in the first. -/
theorem climbs_trans (wf : Wf ws s) (wfT : Wf js t) (wf' : Wf ks u) (first : Climbs n s t)
    (second : Climbs k t u)
    (keep : ∀ l, s.weight l = 0 → t.weight l ≠ 0 → u.weight l = t.weight l) :
    Climbs (n + k) s u := by
  refine ⟨first.vars.trans second.vars, ?_, ?_, ?_⟩
  · have := first.length
    have := second.length
    omega
  · intro c o cell
    obtain ⟨p, cellP, climbed⟩ := first.old c o cell
    obtain ⟨q, cellQ, climbed'⟩ := second.old c p cellP
    exact ⟨q, cellQ, climbed_trans wf wf' cell cellQ first.vars keep climbed climbed'⟩
  · intro c q absent cellQ
    cases cellP : t.cards[c]? with
    | none =>
      have born := second.new c q cellP cellQ
      exact ⟨fun k x made => first.vars.trans_lt (born.fresh k x made), born.first, born.reached⟩
    | some p =>
      obtain ⟨r, cellR, climbed⟩ := second.old c p cellP
      have : r = q := Option.some.inj (cellR.symm.trans cellQ)
      subst this
      have born := first.new c p absent cellP
      have pos := (wfT.cards c p cellP).weight_pos
      have kept : ∀ x, p.card.output p.level = some x → u.weight (-x) = t.weight (-x) := by
        intro x made
        obtain ⟨y, made', weight⟩ := born.reached
        have : y = x := Option.some.inj (made'.symm.trans made)
        subst this
        exact keep _ (weight_of_fresh wf (born.fresh _ _ made)) (by omega)
      obtain ⟨level, reached⟩ := reached_stays wf' cellQ pos born.reached kept climbed
      refine ⟨?_, level.trans born.first, reached⟩
      intro k x made
      rcases climbed.fresh k x made with old | fresh
      · exact born.fresh k x old
      · exact first.vars.trans_lt fresh

theorem climbs_lower {l x : Int} {m : WeightMap} (wf : Wf ws s) (nonneg : 0 ≤ x)
    (le : x ≤ s.weight l) (nonzero : l ≠ 0) (bound : l.natAbs ≤ s.solver.nVar) :
    Climbs 0 s (s.putWeight l x m) := by
  have range : x.natAbs < 2 ^ 63 := by have := wf.weight_range l; omega
  refine climbs_same wf (Nat.le_refl _) rfl ?_
  intro c o y cell made
  have opposite := wf.weight_neg l
  have nonpos := ((wf.cards c o cell).outputs _ _ made).1
  have negY := wf.weight_neg y
  rw [weight_put wf range nonzero bound, reweigh]
  split
  · rename_i same; rw [same]; exact le
  · split
    · rename_i same
      have := congrArg s.weight same
      omega
    · exact Int.le_refl _

theorem climbs_plain {lit x : Int} {m : WeightMap} (wf : Wf ws s) (plain : s.Plain lit.natAbs)
    (range : x.natAbs < 2 ^ 63) (nonzero : lit ≠ 0) (bound : lit.natAbs ≤ s.solver.nVar) :
    Climbs 0 s (s.putWeight lit x m) := by
  refine climbs_same wf (Nat.le_refl _) rfl ?_
  intro c o y cell made
  have apart : y.natAbs ≠ lit.natAbs := by
    intro same
    have pos := (wf.output_pos cell made).1
    apply plain c o o.level cell
    rw [made, ← same]
    congr 1
    omega
  rw [weight_put wf range nonzero bound, reweigh, if_neg (by omega), if_neg (by omega)]

theorem climbs_grow {cs : Cnf} (wf : Wf ws s) : Climbs 0 s (s.grow n cs) :=
  climbs_same wf (Nat.le_add_right _ _) rfl fun _ _ _ _ _ => by rw [weight_grow]

end EvalMaxSat
