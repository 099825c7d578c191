import EvalMaxSat.Invariant

/-!
A totalizer over its whole life: calls of `atMost` and of `add` in any order, while the
solver may be given further variables.
-/
namespace EvalMaxSat
open Literals LawfulSink

/-- What `atMost k` returned when the inputs were `inputs`. -/
structure Returned where
  lit : Int
  k : Nat
  inputs : List Int
  deriving DecidableEq

structure Session (τ : Type) where
  sink : τ
  card : CardIncremental_Lazy
  inputs : List Int
  /-- The variables made by the totalizer. -/
  own : List Nat
  returned : List Returned

inductive Request where
  | atMost (k : Nat)
  | add (clause : Clause)
  | newVar

namespace Session

section Definitions
variable {τ : Type} [ClauseSink τ] [LawfulSink τ]

def start (sink : τ) (clause : Clause) (bound : Nat) : Session τ where
  sink := sink
  card := CardIncremental_Lazy.mk' clause bound
  inputs := clause
  own := []
  returned := []

def serve (σ : Session τ) : Request → Session τ
  | .atMost k =>
    let (lit, card, sink) := σ.card.atMost k σ.sink
    { σ with
      sink := sink
      card := card
      own := σ.own ++ List.range' (vars σ.sink + 1) (vars sink - vars σ.sink)
      returned := σ.returned ++ [⟨lit, k, σ.inputs⟩] }
  | .add clause => { σ with card := σ.card.add clause, inputs := σ.inputs ++ clause }
  | .newVar => { σ with sink := (ClauseSink.newVar σ.sink).2 }

/-- The inputs are nonzero literals of variables that exist and are not the totalizer's. -/
def Accepts (σ : Session τ) : Request → Prop
  | .add clause => clause ≠ [] ∧ Within (vars σ.sink) clause ∧ ∀ l ∈ clause, l.natAbs ∉ σ.own
  | _ => True

inductive Reachable : Session τ → Prop
  | opened (sink : τ) (clause : Clause) (bound : Nat) (nonempty : clause ≠ [])
      (within : Within (vars sink) clause) (blank : clauses sink = []) :
      Reachable (start sink clause bound)
  | served (σ : Session τ) (q : Request) (before : Reachable σ) (accepts : σ.Accepts q) :
      Reachable (σ.serve q)

end Definitions

end Session

variable {τ : Type} [ClauseSink τ] [LawfulSink τ]

namespace TotTree

theorem get_keeps_outputs {t : TotTree} {i : Nat} {s : τ} (wf : t.WellFormed)
    (lt : i < t.lazyVars.length) :
    (t.get i s).2.1.output i = some (t.get i s).1 ∧
      ∀ j x, t.output j = some x → (t.get i s).2.1.output j = some x := by
  cases t with
  | leaf v =>
    obtain ⟨_, x, made, _⟩ := wf
    have zero : i = 0 := by simpa [lazyVars] using lt
    subst zero
    have out : (TotTree.leaf v).get 0 s = (x, .leaf v, s) := by simp [get, getAt, made]
    rw [out]
    exact ⟨by simp [output, lazyVars, made], fun _ _ old => old⟩
  | node n vs l r =>
    have several : 2 ≤ (TotTree.node n vs l r).getClause.length := by
      have left := getClause_pos wf.1
      have right := getClause_pos wf.2.1
      simp only [getClause, List.length_append]; omega
    obtain ⟨here, others, origin⟩ := get_outputs (s := s) wf several lt
    refine ⟨here, fun j x old => ?_⟩
    by_cases same : j = i
    · subst same
      rcases origin with ⟨made, _⟩ | ⟨unmade, _⟩
      · rw [here, ← made, old]
      · rw [unmade] at old; simp at old
    · rw [others j same, old]

omit [LawfulSink τ] in
theorem get_made {t : TotTree} {i : Nat} {s : τ} {x : Int} (made : t.output i = some x) :
    t.get i s = (x, t, s) := by
  obtain ⟨v, found, var⟩ := Option.bind_eq_some_iff.mp made
  cases t with
  | leaf w =>
    have : v = w := by
      have zero : i = 0 := by
        have := (List.getElem?_eq_some_iff.mp found).1
        simpa [lazyVars] using this
      subst zero
      simpa [lazyVars] using found.symm
    subst this
    simp [get, getAt, var]
  | node n vs l r => exact getAt_made found var

end TotTree

namespace CardIncremental_Lazy

theorem add_ready {c : CardIncremental_Lazy} {clause : Clause} {s : τ} (ready : c.tree.Ready s)
    (nonempty : clause ≠ []) (within : Within (vars s) clause) :
    (c.add clause).tree.Ready s ∧
      (c.add clause).tree.getClause.Perm (c.tree.getClause ++ clause) ∧
      ∀ m, c.tree.Exact m → (c.add clause).tree.Exact m := by
  obtain ⟨built, _⟩ := TotTree.buildTo_spec (r := c.tree.lazyVars.length) nonempty
    (fun l mem => (within l mem).1)
  obtain ⟨readyB, perm⟩ := TotTree.buildTo_ready (a := c.tree.lazyVars.length) nonempty within
  have outputs : ∀ P, (TotTree.buildTo c.tree.lazyVars.length clause).AllOutputs P :=
    fun P => TotTree.buildTo_allOutputs P _ clause
  refine ⟨⟨TotTree.join_wellFormed ready.wellFormed built.1 (Nat.min_le_left _ _) built.2,
    ⟨?_, TotTree.join_allOutputs ready.varsUpTo.2 (outputs _)⟩,
    fun m models => TotTree.join_allOutputs (ready.sound m models) (outputs _)⟩,
    perm.append_left _, fun m exact_m => TotTree.join_allOutputs exact_m (outputs _)⟩
  intro l mem
  rcases List.mem_append.mp mem with old | new
  · exact ready.varsUpTo.1 l old
  · exact readyB.varsUpTo.1 l new

end CardIncremental_Lazy

/-- The literal is true just when at most `k` of the inputs are. -/
def Returned.Governs (r : Returned) (m : Assignment) : Prop :=
  litTrue m r.lit = true ↔ trueCount m r.inputs ≤ r.k

namespace Session
variable {σ : Session τ}

structure Sound (σ : Session τ) : Prop where
  ready : σ.card.tree.Ready σ.sink
  maxVars : σ.card.maxVars = σ.inputs.length
  inputs : σ.card.tree.getClause.Perm σ.inputs
  within : ClausesWithin σ.sink
  inside : ∀ r ∈ σ.returned, r.lit ≠ 0 →
    Within (vars σ.sink) r.inputs ∧ r.lit.natAbs ≤ vars σ.sink
  bounds : ∀ r ∈ σ.returned, r.lit ≠ 0 → ∀ m, Models m (clauses σ.sink) →
    litTrue m r.lit = true → trueCount m r.inputs ≤ r.k
  complete : ∀ a : Assignment, ∃ m, (∀ v ≤ vars σ.sink, v ∉ σ.own → m v = a v) ∧
    Models m (clauses σ.sink) ∧ σ.card.tree.Exact m ∧
    ∀ r ∈ σ.returned, r.lit ≠ 0 → r.Governs m
  shorter : ∀ r ∈ σ.returned, r.inputs.length ≤ σ.inputs.length
  current : ∀ r ∈ σ.returned, r.inputs.length = σ.inputs.length →
    (r.lit = 0 ∧ σ.inputs.length ≤ r.k) ∨ (r.k < σ.inputs.length ∧ σ.card.output r.k = some (-r.lit))

theorem governs_agree {n : Nat} {r : Returned} {m k : Assignment} (agree : AgreeUpTo n m k)
    (within : Within n r.inputs) (bound : r.lit.natAbs ≤ n) (governs : r.Governs m) :
    r.Governs k := by
  unfold Returned.Governs
  rw [litTrue_agree agree bound, trueCount_agree agree within]
  exact governs

theorem sound_open {sink : τ} {clause : Clause} (bound : Nat) (nonempty : clause ≠ [])
    (within : Within (vars sink) clause) (blank : clauses sink = []) :
    (start sink clause bound).Sound := by
  obtain ⟨ready, perm⟩ := TotTree.buildTo_ready (a := u32 (bound + 1)) nonempty within
  refine ⟨ready, rfl, perm, ?_, by simp [start], by simp [start], ?_, by simp [start],
    by simp [start]⟩
  · intro c mem
    change c ∈ clauses sink at mem
    rw [blank] at mem; simp at mem
  · intro a
    refine ⟨a, fun _ _ _ => rfl, ?_, TotTree.buildTo_allOutputs _ _ clause, by simp [start]⟩
    change Models a (clauses sink)
    rw [blank]; simp [Models]

theorem sound_newVar (sound : σ.Sound) : (σ.serve .newVar).Sound := by
  have more : vars σ.sink ≤ vars (ClauseSink.newVar σ.sink).2 := by rw [newVar_vars]; omega
  have same := newVar_clauses σ.sink
  have sub : clauses σ.sink ⊆ clauses (ClauseSink.newVar σ.sink).2 := by
    rw [same]; exact List.Subset.refl _
  refine ⟨TotTree.ready_later sound.ready more sub, sound.maxVars, sound.inputs,
    clausesWithin_newVar sound.within, ?_, ?_, ?_, sound.shorter, sound.current⟩
  · intro r mem nonzero
    obtain ⟨inputs, lit⟩ := sound.inside r mem nonzero
    exact ⟨within_mono more inputs, lit.trans more⟩
  · intro r mem nonzero m models
    change Models m (clauses (ClauseSink.newVar σ.sink).2) at models
    rw [same] at models
    exact sound.bounds r mem nonzero m models
  · intro a
    obtain ⟨m, agrees, models, exact_m, governs⟩ := sound.complete a
    have agree : AgreeUpTo (vars σ.sink) m (assign m (vars σ.sink + 1) (a (vars σ.sink + 1))) :=
      assign_agree (Nat.lt_succ_self _)
    refine ⟨assign m (vars σ.sink + 1) (a (vars σ.sink + 1)), ?_, ?_,
      TotTree.exact_agree agree sound.ready.varsUpTo exact_m, ?_⟩
    · intro v bound other
      change v ≤ vars (ClauseSink.newVar σ.sink).2 at bound
      rw [newVar_vars] at bound
      rcases Nat.lt_or_eq_of_le bound with less | last
      · rw [agree v (by omega)]
        exact agrees v (by omega) other
      · subst last; exact assign_self
    · change Models _ (clauses (ClauseSink.newVar σ.sink).2)
      rw [same]
      exact (models_agree agree sound.within).mpr models
    · intro r mem nonzero
      obtain ⟨inputs, lit⟩ := sound.inside r mem nonzero
      exact governs_agree agree inputs lit (governs r mem nonzero)

theorem sound_add {clause : Clause} (sound : σ.Sound) (accepts : σ.Accepts (.add clause)) :
    (σ.serve (.add clause)).Sound := by
  obtain ⟨nonempty, within, _⟩ := accepts
  obtain ⟨ready, perm, exacts⟩ := CardIncremental_Lazy.add_ready sound.ready nonempty within
  have pos := List.length_pos_of_ne_nil nonempty
  refine ⟨ready, ?_, perm.trans (sound.inputs.append_right _), sound.within, sound.inside,
    sound.bounds, ?_, ?_, ?_⟩
  · simp [serve, CardIncremental_Lazy.add, sound.maxVars]
  · intro a
    obtain ⟨m, agrees, models, exact_m, governs⟩ := sound.complete a
    exact ⟨m, agrees, models, exacts m exact_m, governs⟩
  · intro r mem
    have := sound.shorter r mem
    simp only [serve, List.length_append]; omega
  · intro r mem same
    have := sound.shorter r mem
    simp only [serve, List.length_append] at same; omega

theorem sound_atMost_none {k : Nat} (sound : σ.Sound) (le : σ.inputs.length ≤ k) :
    (σ.serve (.atMost k)).Sound := by
  have none : σ.card.atMost k σ.sink = (0, σ.card, σ.sink) :=
    CardIncremental_Lazy.atMost_none (by rw [sound.maxVars]; exact le)
  have same : σ.serve (.atMost k) = { σ with returned := σ.returned ++ [⟨0, k, σ.inputs⟩] } := by
    simp [serve, none]
  have known : ∀ r ∈ σ.returned ++ [⟨0, k, σ.inputs⟩], r.lit ≠ 0 → r ∈ σ.returned := by
    intro r mem nonzero
    rcases List.mem_append.mp mem with old | new
    · exact old
    · obtain rfl := List.mem_singleton.mp new
      exact absurd rfl nonzero
  rw [same]
  refine ⟨sound.ready, sound.maxVars, sound.inputs, sound.within, ?_, ?_, ?_, ?_, ?_⟩
  · intro r mem nonzero
    exact sound.inside r (known r mem nonzero) nonzero
  · intro r mem nonzero
    exact sound.bounds r (known r mem nonzero) nonzero
  · intro a
    obtain ⟨m, agrees, models, exact_m, governs⟩ := sound.complete a
    exact ⟨m, agrees, models, exact_m,
      fun r mem nonzero => governs r (known r mem nonzero) nonzero⟩
  · intro r mem
    rcases List.mem_append.mp mem with old | new
    · exact sound.shorter r old
    · obtain rfl := List.mem_singleton.mp new
      exact Nat.le_refl _
  · intro r mem equal
    rcases List.mem_append.mp mem with old | new
    · exact sound.current r old equal
    · obtain rfl := List.mem_singleton.mp new
      exact Or.inl ⟨rfl, le⟩

/-- What a call of `atMost` for a `k` below the number of inputs does. -/
structure Answers (σ : Session τ) (k : Nat) (x : Int) (tree : TotTree) (sink : τ) : Prop where
  eq : σ.card.atMost k σ.sink = (-x, { σ.card with tree := tree }, sink)
  ready : tree.Ready sink
  within : ClausesWithin sink
  inputs : tree.getClause = σ.card.tree.getClause
  literal : x ≠ 0 ∧ x.natAbs ≤ vars sink
  upward : ∀ m, Models m (clauses sink) → k + 1 ≤ trueCount m σ.inputs → litTrue m x = true
  extend : Extends σ.sink sink (σ.card.tree.Exact ·)
    (fun m => tree.Exact m ∧ (litTrue m x = decide (k + 1 ≤ trueCount m σ.inputs)))
  made : tree.output k = some x
  kept : ∀ j y, σ.card.tree.output j = some y → tree.output j = some y

theorem answers {k : Nat} (sound : σ.Sound) (lt : k < σ.inputs.length) :
    ∃ x tree sink, Answers σ k x tree sink := by
  have length := sound.inputs.length_eq
  have grown := CardIncremental_Lazy.grown_spec (c := σ.card) (k := k) sound.ready (by omega)
  have spec := TotTree.get_spec grown.ready sound.within grown.long
  obtain ⟨made, kept⟩ := TotTree.get_keeps_outputs (s := σ.sink) grown.ready.wellFormed grown.long
  have eq := CardIncremental_Lazy.atMost_some (c := σ.card) (s := σ.sink)
    (by rw [sound.maxVars]; exact lt)
  have count : ∀ m, trueCount m (σ.card.grown k).getClause = trueCount m σ.inputs := by
    intro m
    rw [grown.inputs]
    exact sound.inputs.countP_eq _
  refine ⟨_, _, _, ⟨eq, spec.ready, spec.within, spec.keeps.inputs.trans grown.inputs, spec.literal,
    ?_, ?_, made, fun j y old => kept j y ((grown.outputs j).trans old)⟩⟩
  · intro m models enough
    exact spec.upward m models (by rw [count]; exact enough)
  · refine extends_mono spec.extend grown.exacts ?_
    rintro m ⟨exact_m, counts⟩
    refine ⟨exact_m, ?_⟩
    rw [← count]; exact counts

theorem sound_atMost_some {k : Nat} (sound : σ.Sound) (lt : k < σ.inputs.length) :
    (σ.serve (.atMost k)).Sound := by
  obtain ⟨x, tree, sink, ans⟩ := answers sound lt
  have more := ans.extend.1
  have sub := ans.extend.2.1
  have inputsIn : Within (vars σ.sink) σ.inputs := fun l mem =>
    sound.ready.varsUpTo.1 l (sound.inputs.symm.subset mem)
  have same : σ.serve (.atMost k) = { σ with
      sink := sink
      card := { σ.card with tree := tree }
      own := σ.own ++ List.range' (vars σ.sink + 1) (vars sink - vars σ.sink)
      returned := σ.returned ++ [⟨-x, k, σ.inputs⟩] } := by
    simp only [serve, ans.eq]
  have opposite : ∀ m, litTrue m (-x) = !litTrue m x := fun m => litTrue_neg ans.literal.1
  rw [same]
  refine ⟨ans.ready, sound.maxVars, ?_, ans.within, ?_, ?_, ?_, ?_, ?_⟩
  · change tree.getClause.Perm σ.inputs
    rw [ans.inputs]; exact sound.inputs
  · intro r mem nonzero
    rcases List.mem_append.mp mem with old | new
    · obtain ⟨inputs, lit⟩ := sound.inside r old nonzero
      exact ⟨within_mono more inputs, lit.trans more⟩
    · obtain rfl := List.mem_singleton.mp new
      exact ⟨within_mono more inputsIn, by rw [Int.natAbs_neg]; exact ans.literal.2⟩
  · intro r mem nonzero m models holds
    rcases List.mem_append.mp mem with old | new
    · exact sound.bounds r old nonzero m (fun c inside => models c (sub inside)) holds
    · obtain rfl := List.mem_singleton.mp new
      by_contra above
      rw [opposite, ans.upward m models (by simp only at above; omega)] at holds
      simp at holds
  · intro a
    obtain ⟨m, agrees, models, exact_m, governs⟩ := sound.complete a
    obtain ⟨j, agree, models', exact_j, counts⟩ := ans.extend.2.2.2 m models exact_m
    refine ⟨j, ?_, models', exact_j, ?_⟩
    · intro v bound other
      simp only [List.mem_append, List.mem_range'_1, not_or, not_and, not_lt] at other
      have old : v ≤ vars σ.sink := by
        by_contra new
        have := other.2 (by omega)
        simp only at bound
        omega
      rw [agree v old]
      exact agrees v old other.1
    · intro r mem nonzero
      rcases List.mem_append.mp mem with old | new
      · obtain ⟨inputs, lit⟩ := sound.inside r old nonzero
        exact governs_agree agree inputs lit (governs r old nonzero)
      · obtain rfl := List.mem_singleton.mp new
        unfold Returned.Governs
        rw [opposite, counts]
        simp
  · intro r mem
    rcases List.mem_append.mp mem with old | new
    · exact sound.shorter r old
    · obtain rfl := List.mem_singleton.mp new
      exact Nat.le_refl _
  · intro r mem equal
    rcases List.mem_append.mp mem with old | new
    · rcases sound.current r old equal with zero | ⟨below, made⟩
      · exact Or.inl zero
      · exact Or.inr ⟨below, ans.kept _ _ made⟩
    · obtain rfl := List.mem_singleton.mp new
      refine Or.inr ⟨lt, ?_⟩
      rw [neg_neg]; exact ans.made

theorem sound_of_reachable (reachable : σ.Reachable) : σ.Sound := by
  induction reachable with
  | opened sink clause bound nonempty within blank => exact sound_open bound nonempty within blank
  | served σ q _ accepts ih =>
    cases q with
    | newVar => exact sound_newVar ih
    | add clause => exact sound_add ih accepts
    | atMost k =>
      rcases Nat.lt_or_ge k σ.inputs.length with lt | le
      · exact sound_atMost_some ih lt
      · exact sound_atMost_none ih le

/-- Whatever was asked so far: `atMost` returns `0` just for a `k` that bounds nothing; a
literal it returned implies its bound; every assignment of the other variables extends to a
model in which all the returned literals say exactly what they bound; and with no input
added since, a bound asked for again costs nothing and gives the same literal. -/
theorem totalizer_correct (reachable : σ.Reachable) :
    (∀ k, (σ.card.atMost k σ.sink).1 = 0 ↔ σ.inputs.length ≤ k) ∧
    (∀ r ∈ σ.returned, r.lit ≠ 0 → ∀ m, Models m (clauses σ.sink) →
      litTrue m r.lit = true → trueCount m r.inputs ≤ r.k) ∧
    (∀ a : Assignment, ∃ m, (∀ v ≤ vars σ.sink, v ∉ σ.own → m v = a v) ∧
      Models m (clauses σ.sink) ∧
      ∀ r ∈ σ.returned, r.lit ≠ 0 → (litTrue m r.lit = true ↔ trueCount m r.inputs ≤ r.k)) ∧
    ∀ r ∈ σ.returned, r.inputs = σ.inputs →
      σ.card.atMost r.k σ.sink = (r.lit, σ.card, σ.sink) := by
  have sound := sound_of_reachable reachable
  refine ⟨?_, sound.bounds, ?_, ?_⟩
  · intro k
    constructor
    · intro zero
      by_contra lt
      obtain ⟨x, tree, sink, ans⟩ := answers sound (Nat.lt_of_not_le lt)
      rw [ans.eq] at zero
      exact ans.literal.1 (by simpa using zero)
    · intro le
      rw [CardIncremental_Lazy.atMost_none (by rw [sound.maxVars]; exact le)]
  · intro a
    obtain ⟨m, agrees, models, _, governs⟩ := sound.complete a
    exact ⟨m, agrees, models, governs⟩
  · intro r mem equal
    rcases sound.current r mem (by rw [equal]) with ⟨zero, le⟩ | ⟨lt, made⟩
    · rw [CardIncremental_Lazy.atMost_none (by rw [sound.maxVars]; exact le), zero]
    · have long : r.k < σ.card.tree.lazyVars.length := by
        obtain ⟨v, found, _⟩ := Option.bind_eq_some_iff.mp made
        exact (List.getElem?_eq_some_iff.mp found).1
      have tree : σ.card.grown r.k = σ.card.tree := by
        rw [CardIncremental_Lazy.grown, if_neg (by omega)]
      rw [CardIncremental_Lazy.atMost_some (by rw [sound.maxVars]; exact lt), tree,
        TotTree.get_made made, neg_neg]

theorem totalizer_correct_grown :
    let σ := ((start (EvalMaxSAT.newVars 3 (EvalMaxSAT.fresh ())) [1, 2] 0).serve (.atMost 1)).serve
      (.add [3])
    ∀ k, (σ.card.atMost k σ.sink).1 = 0 ↔ 3 ≤ k := by
  have opened : Reachable (start (EvalMaxSAT.newVars 3 (EvalMaxSAT.fresh ())) [1, 2] 0) :=
    .opened _ _ _ (by decide) (by unfold Within; decide) rfl
  have asked := Reachable.served _ (.atMost 1) opened trivial
  have added := Reachable.served _ (.add [3]) asked
    ⟨by decide, by unfold Within; decide, by decide⟩
  exact (totalizer_correct added).1

/-- Every assignment of the inputs extends to a model in which the returned literals say exactly what
they bound. -/
def Extending (σ : Session τ) : Prop :=
  ∀ a : Assignment, ∃ m, (∀ l ∈ σ.inputs, litTrue m l = litTrue a l) ∧ Models m (clauses σ.sink) ∧
    ∀ r ∈ σ.returned, r.lit ≠ 0 → r.Governs m

/-- A new output takes the number of an input that the solver did not know; an output that is added as
an input is not free. -/
theorem numbers_taken_twice :
    ¬ ((start (EvalMaxSAT.fresh ()) [1, 2] 0).serve (.atMost 1)).Extending ∧
      ¬ (((start (EvalMaxSAT.newVars 2 (EvalMaxSAT.fresh ())) [1, 2] 0).serve (.atMost 0)).serve
        (.add [3])).Extending := by
  constructor
  · intro extending
    obtain ⟨m, agrees, _, governs⟩ := extending fun v => v == 1
    have first : litTrue m 1 = true := agrees 1 (by decide)
    have second : litTrue m 2 = false := agrees 2 (by decide)
    have bound : litTrue m (-1) = true ↔ trueCount m [1, 2] ≤ 1 :=
      governs ⟨-1, 1, [1, 2]⟩ (by decide) (by decide)
    rw [litTrue_neg (by decide), first] at bound
    simp [trueCount, first, second] at bound
  · intro extending
    obtain ⟨m, agrees, models, _⟩ := extending fun v => v == 1
    have first : litTrue m 1 = true := agrees 1 (by decide)
    have third : litTrue m 3 = false := agrees 3 (by decide)
    obtain ⟨l, mem, holds⟩ := models [-1, 3] (by decide)
    rcases List.mem_pair.mp mem with rfl | rfl
    · rw [litTrue_neg (by decide), first] at holds
      simp at holds
    · rw [third] at holds
      simp at holds

end Session
end EvalMaxSat
