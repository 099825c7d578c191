import EvalMaxSat.Ledger

/-!
The invariant of the state between two steps, and the relation between two states that
describe the same problem.
-/
namespace EvalMaxSat
open Literals OrderedContainers LawfulSink

variable {K : Type}

/-- What the totalizer does to the state: new variables without weight, and clauses. -/
def EvalMaxSAT.grow (n : Nat) (cs : Cnf) (s : EvalMaxSAT K) : EvalMaxSAT K :=
  { s with
    solver := { s.solver with nVar := s.solver.nVar + n, clauses := s.solver.clauses ++ cs }
    poids := ⟨s.poids.weight ++ List.replicate n 0⟩
    mapAssum2Card := s.mapAssum2Card ++ List.replicate n none }

theorem grow_zero (s : EvalMaxSAT K) : s.grow 0 [] = s := by simp [EvalMaxSAT.grow]

theorem grow_grow (s : EvalMaxSAT K) (n k : Nat) (cs ds : Cnf) :
    (s.grow n cs).grow k ds = s.grow (n + k) (cs ++ ds) := by
  simp [EvalMaxSAT.grow, Nat.add_assoc]

theorem addClause_nVar {c : Clause} {S : Solver_cadical K} (within : Within S.nVar c) :
    (S.addClause c).nVar = S.nVar := by
  have kept : ∀ ls : List Int, (∀ l ∈ ls, l.natAbs ≤ S.nVar) →
      ls.foldl (fun n l => if n < l.natAbs then l.natAbs else n) S.nVar = S.nVar := by
    intro ls
    induction ls with
    | nil => intro _; rfl
    | cons l ls ih =>
      intro all
      rw [List.foldl_cons, if_neg (by have := all l (by simp); omega)]
      exact ih (fun k mem => all k (by simp [mem]))
  exact kept c (fun l mem => (within l mem).2)

theorem addClause_eq {c : Clause} {S : Solver_cadical K} (within : Within S.nVar c) :
    S.addClause c = { S with clauses := S.clauses ++ [c] } := by
  have same := addClause_nVar within
  simp only [Solver_cadical.addClause] at same ⊢
  rw [same]

instance : LawfulSink (EvalMaxSAT K) where
  vars s := s.solver.nVar
  clauses s := s.solver.clauses
  newVar_var _ := rfl
  newVar_vars _ := rfl
  newVar_clauses _ := rfl
  addClause_vars _ _ within := addClause_nVar within
  addClause_clauses _ _ := rfl
  Grows s t := ∃ n cs, t = s.grow n cs
  grows_refl s := ⟨0, [], (grow_zero s).symm⟩
  grows_trans := by
    rintro s t u ⟨n, cs, rfl⟩ ⟨k, ds, rfl⟩
    exact ⟨n + k, cs ++ ds, grow_grow s n k cs ds⟩
  newVar_grows s := ⟨1, [], by
    simp [EvalMaxSAT.grow, ClauseSink.newVar, EvalMaxSAT.newVar, Solver_cadical.newVar,
      WeightVector.pushBack]⟩
  addClause_grows s c within := ⟨0, [c], by
    simp [EvalMaxSAT.grow, ClauseSink.addClause, addClause_eq within]⟩

@[simp] theorem vars_eq (s : EvalMaxSAT K) : vars s = s.solver.nVar := rfl

@[simp] theorem clauses_eq (s : EvalMaxSAT K) : clauses s = s.solver.clauses := rfl

section Index

/-- The weight function with the weight of one literal, and of its negation, replaced. -/
def reweigh (wt : Int → Int) (lit x : Int) : Int → Int :=
  fun l => if l = lit then x else if l = -lit then -x else wt l

def InBucket (m : WeightMap) (w : Nat) (lit : Int) : Prop :=
  ∃ b, m.lookup w = some b ∧ lit ∈ b

/-- The buckets hold exactly the literals of positive weight, each in its own. -/
def Indexes (m : WeightMap) (wt : Int → Int) : Prop :=
  ∀ lit (w : Nat), InBucket m w lit ↔ 0 < w ∧ wt lit = w

theorem reweigh_reweigh (wt : Int → Int) (lit x y : Int) :
    reweigh (reweigh wt lit x) lit y = reweigh wt lit y := by
  funext l
  simp only [reweigh]
  split
  · rfl
  · split <;> rfl

theorem reweigh_self {wt : Int → Int} {lit : Int} (odd : wt (-lit) = -wt lit) :
    reweigh wt lit (wt lit) = wt := by
  funext l
  simp only [reweigh]
  split
  · rename_i same; rw [same]
  · split
    · rename_i opposite; rw [opposite, odd]
    · rfl

theorem inBucket_insertLit {m : WeightMap} {w v : Nat} {lit l : Int} :
    InBucket (m.insertLit w lit) v l ↔ (v = w ∧ l = lit) ∨ InBucket m v l := by
  simp only [InBucket, WeightMap.insertLit, OMap.lookup_modify]
  by_cases same : v = w
  · subst same
    cases found : m.lookup v <;> simp
  · simp [same]

theorem inBucket_eraseLit {m : WeightMap} {w v : Nat} {lit l : Int} :
    InBucket (m.eraseLit w lit) v l ↔ InBucket m v l ∧ ¬ (v = w ∧ l = lit) := by
  simp only [InBucket, WeightMap.eraseLit, OMap.lookup_modify]
  by_cases same : v = w
  · subst same
    cases found : m.lookup v <;> simp
  · simp [same]

theorem indexes_erase {m : WeightMap} {wt : Int → Int} {lit : Int} (index : Indexes m wt)
    (odd : wt (-lit) = -wt lit) (nonzero : lit ≠ 0) (pos : 0 < wt lit)
    (range : wt lit < 2 ^ 63) :
    Indexes (m.eraseLit (u64 (wt lit)) lit) (reweigh wt lit 0) := by
  intro l w
  have word : u64 (wt lit) = (wt lit).toNat := u64_toNat (by omega) (by omega)
  rw [inBucket_eraseLit, index l w, word]
  simp only [reweigh]
  by_cases same : l = lit
  · subst same; simp only [↓reduceIte, and_true]; omega
  · rw [if_neg same]
    by_cases opposite : l = -lit
    · subst opposite; rw [odd]; simp only [↓reduceIte]; omega
    · simp [same, opposite]

theorem indexes_insert {m : WeightMap} {wt : Int → Int} {k x : Int} (index : Indexes m wt)
    (odd : wt (-k) = -wt k) (nonzero : k ≠ 0) (unweighted : wt k = 0) (pos : 0 < x)
    (range : x < 2 ^ 63) : Indexes (m.insertLit (u64 x) k) (reweigh wt k x) := by
  intro l w
  have word : u64 x = x.toNat := u64_toNat (by omega) (by omega)
  rw [inBucket_insertLit, index l w, word]
  simp only [reweigh]
  by_cases same : l = k
  · subst same; simp only [↓reduceIte, and_true]; omega
  · rw [if_neg same]
    by_cases opposite : l = -k
    · subst opposite; rw [odd]; simp only [↓reduceIte]; omega
    · simp [same, opposite]

end Index

def EvalMaxSAT.Canonical (s : EvalMaxSAT K) (m : Assignment) : Prop :=
  ∀ o ∈ s.cards, o.card.tree.Exact m

/-- A literal that has lost its weight and whose cardinality has not moved on yet. -/
def EvalMaxSAT.Waiting (s : EvalMaxSAT K) (lit : Int) : Prop :=
  s.weight lit = 0 ∧ ∃ (v : Nat) (e : LitCard) (o : CardObject), lit = -(v : Int) ∧
    s.cardOf v = some e ∧ s.cards[e.card]? = some o ∧ e.atMost = o.level

structure CardOk (s : EvalMaxSAT K) (ws : List Int) (c : Nat) (o : CardObject) : Prop where
  ready : o.card.Ready s
  level_pos : 1 ≤ o.level
  level_lt : o.level < o.card.inputs.length
  weight_pos : 0 < o.initialWeight
  weight_lt : o.initialWeight < 2 ^ 63
  outputs : ∀ k x, o.card.output k = some x → s.weight x ≤ 0 ∧
    (s.weight x ≠ 0 → k = o.level ∧ s.cardOf x.natAbs = some ⟨c, o.level, o.initialWeight⟩)
  last : ∃ x, o.card.output o.level = some x ∧ (s.weight x < 0 ∨ -x ∈ ws ∨
    [-x] ∈ s.solver.clauses ∨ o.level + 1 = o.card.inputs.length)

def EntryOk (s : EvalMaxSAT K) (v : Nat) (e : LitCard) : Prop :=
  ∃ o, s.cards[e.card]? = some o ∧ e.atMost ≤ o.level ∧ e.initialWeight = o.initialWeight ∧
    o.card.output e.atMost = some (v : Int)

/-- The invariant, where `ws` are the literals whose cardinalities are yet to be relaxed. -/
structure Wf (ws : List Int) (s : EvalMaxSAT K) : Prop where
  poidsSize : s.poids.size = s.solver.nVar + 1
  entriesSize : s.mapAssum2Card.length = s.solver.nVar + 1
  zero : s.weight 0 = 0
  within : ClausesWithin s
  poids_bounded : s.poids.Bounded
  indexed : Indexes s.mapWeight2Assum s.weight
  pending : ∀ p ∈ s.cardToAdd, p.1 ≠ [] ∧ Within s.solver.nVar p.1 ∧ 0 < p.2 ∧ p.2 < 2 ^ 63
  cards : ∀ c o, s.cards[c]? = some o → CardOk s ws c o
  entries : ∀ v e, s.cardOf v = some e → EntryOk s v e
  disjoint : ∀ (c d : Nat) o p i j x, s.cards[c]? = some o → s.cards[d]? = some p →
    o.card.output i = some x → p.card.output j = some x → c = d ∧ i = j
  nodup : ws.Nodup
  waiting : ∀ l ∈ ws, s.Waiting l

def EvalMaxSAT.Plain (s : EvalMaxSAT K) (v : Nat) : Prop :=
  ∀ (c : Nat) o k, s.cards[c]? = some o → o.card.output k ≠ some (v : Int)

/-- `t` describes the problem of `s` as far as `φ` goes, up to what `less` says has been paid:
each model of `s` with `φ` that counts exactly extends to one of `t` that owes that much less,
and no model of `t` owes less than that. No variable of `s` becomes an output. -/
structure SimOn (φ : Assignment → Prop) (less : Gauge → Nat) (s t : EvalMaxSAT K) : Prop where
  vars : s.solver.nVar ≤ t.solver.nVar
  clauses : s.solver.clauses ⊆ t.solver.clauses
  plain : ∀ v ≤ s.solver.nVar, t.Plain v ↔ s.Plain v
  potential : t.potential + less everyLit = s.potential
  forward : ∀ m, Models m s.solver.clauses → s.Canonical m → φ m →
    ∃ k, AgreeUpTo s.solver.nVar m k ∧ Models k t.solver.clauses ∧ t.Canonical k ∧
      t.owed (falsified k) + less (falsified m) = s.owed (falsified m)
  backward : ∀ m, Models m t.solver.clauses →
    s.owed (falsified m) ≤ t.owed (falsified m) + less (falsified m)

abbrev Sim (less : Gauge → Nat) (s t : EvalMaxSAT K) : Prop := SimOn (fun _ => True) less s t

def Local (n : Nat) (less : Gauge → Nat) : Prop :=
  ∀ m k, AgreeUpTo n m k → less (falsified k) = less (falsified m)

theorem sim_refl (s : EvalMaxSAT K) : Sim (fun _ => 0) s s :=
  ⟨Nat.le_refl _, List.Subset.refl _, fun _ _ => Iff.rfl, rfl,
    fun m models canonical _ => ⟨m, agree_refl _ m, models, canonical, rfl⟩,
    fun _ _ => Nat.le_refl _⟩

theorem simOn_trans {φ ψ : Assignment → Prop} {less less' : Gauge → Nat} {s t u : EvalMaxSAT K}
    (first : SimOn φ less s t) (second : SimOn ψ less' t u) (looks : Local s.solver.nVar less')
    (meets : ∀ m k, AgreeUpTo s.solver.nVar m k → φ m → ψ k) :
    SimOn φ (fun γ => less γ + less' γ) s u where
  vars := first.vars.trans second.vars
  clauses := List.Subset.trans first.clauses second.clauses
  plain := fun v bound => (second.plain v (bound.trans first.vars)).trans (first.plain v bound)
  potential := by have := first.potential; have := second.potential; omega
  forward := by
    intro m models canonical holds
    obtain ⟨k, agree, models', canonical', owed⟩ := first.forward m models canonical holds
    obtain ⟨j, agree', models'', canonical'', owed'⟩ :=
      second.forward k models' canonical' (meets m k agree holds)
    refine ⟨j, agree_trans first.vars agree agree', models'', canonical'', ?_⟩
    have := looks m k agree
    omega
  backward := by
    intro m models
    have earlier := first.backward m (fun c mem => models c (second.clauses mem))
    have later := second.backward m models
    omega

theorem sim_trans {less less' : Gauge → Nat} {s t u : EvalMaxSAT K} (first : Sim less s t)
    (second : Sim less' t u) (looks : Local s.solver.nVar less') :
    Sim (fun γ => less γ + less' γ) s u :=
  simOn_trans first second looks fun _ _ _ _ => trivial

theorem simOn_weaken {φ ψ : Assignment → Prop} {less : Gauge → Nat} {s t : EvalMaxSAT K}
    (h : SimOn φ less s t)
    (implied : ∀ m, Models m s.solver.clauses → ψ m → φ m) : SimOn ψ less s t :=
  { h with forward := fun m models canonical holds =>
      h.forward m models canonical (implied m models holds) }

theorem simOn_congr {φ : Assignment → Prop} {less less' : Gauge → Nat} {s t : EvalMaxSAT K}
    (h : SimOn φ less s t) (same : ∀ γ, less γ = less' γ) : SimOn φ less' s t := by
  have : less = less' := funext same
  rwa [← this]

/-- The fields that no rewriting of the formula looks at or changes. -/
def EvalMaxSAT.aside (s : EvalMaxSAT K) :
    Bool × List Bool × Nat × (Bool × Bool × Bool × Bool × Bool) × Nat :=
  (s.startSolve, s.solution, s.solutionCost,
    (s.delayStrategy, s.multiSolveStrategy, s.ubStrategy, s.toOptimize, s.isIncremental),
    s.nInputVars)

/-- `t` is another description of the problem of `s`, where `d` of what was owed is cost. -/
structure Rewrites (d : Nat) (s t : EvalMaxSAT K) : Prop where
  sim : Sim (fun _ => d) s t
  cost : t.cost = u64 (s.cost + d)
  aside : t.aside = s.aside

theorem rewrites_refl (word : s.cost < 2 ^ 64) : Rewrites 0 s s :=
  ⟨sim_refl s, by rw [Nat.cast_zero, Int.add_zero, u64_of_nat word], rfl⟩

theorem rewrites_trans {d e : Nat} {s t u : EvalMaxSAT K} (first : Rewrites d s t)
    (second : Rewrites e t u) : Rewrites (d + e) s u where
  sim := sim_trans first.sim second.sim fun _ _ _ => rfl
  cost := by rw [second.cost, first.cost, u64_add, Nat.cast_add, Int.add_assoc]
  aside := second.aside.trans first.aside

end EvalMaxSat
