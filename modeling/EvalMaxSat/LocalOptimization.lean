import EvalMaxSat.ReferenceBackEnd
import EvalMaxSat.Steps

/-!
The local optimizer: the soft literals it holds on to only become more, so the model it ends
with falsifies no soft literal that the first one satisfied.
-/
namespace EvalMaxSat
open Literals OrderedContainers LawfulSink EvalMaxSAT StepProgram

variable {K : Type} {env : Env K} {lo : LocalOptimizer2} {s t : EvalMaxSAT K} {sol : List Bool}

theorem softLits_nonzero (lo : LocalOptimizer2) : ∀ l ∈ lo.softLits, l ≠ 0 := by
  intro l mem
  obtain ⟨v, inRange, eq⟩ := List.mem_filterMap.mp mem
  have pos : v ≠ 0 := by
    rintro rfl
    cases size : lo.poids.size with
    | zero => rw [size] at inRange; simp at inRange
    | succ n =>
      rw [size, List.range_succ_eq_map] at inRange
      simp at inRange
  split at eq
  · have := Option.some.inj eq; omega
  · split at eq
    · have := Option.some.inj eq; omega
    · simp at eq

section Growing

/-- The loop of `optimize`: a falsified literal stays where the back end finds a model for it
and all that is held already. -/
def growSatisfied (env : Env K) (satisfied falsified : List Int) : Program K (List Int × Bool) :=
  .fold (fun (r : List Int × Bool) lit => do
    match ← solverSolveLimited env (r.1 ++ [lit]) .time 0 with
    | some true => return (r.1 ++ [lit], true)
    | _ => return r) (satisfied, false) falsified

def LocalOptimizer2.satisfiedLits (lo : LocalOptimizer2) (sol : List Bool) : List Int :=
  lo.softLits.filter (fun l => litTrue (assignment sol) l = true)

def LocalOptimizer2.falsifiedLits (lo : LocalOptimizer2) (sol : List Bool) : List Int :=
  lo.softLits.filter (fun l => litTrue (assignment sol) l = false)

theorem optimize_eq (env : Env K) (lo : LocalOptimizer2) (sol : List Bool) : lo.optimize env sol =
    (do
      let (assumSatisfied, modify) ←
        growSatisfied env (lo.satisfiedLits sol) (lo.falsifiedLits sol).reverse
      if modify then
        let _ ← solverSolve env assumSatisfied
        let s ← .read
        let solution := s.solver.getSolution
        return (lo.calculateCostAssign solution, solution)
      else return (lo.calculateCostAssign sol, sol)) := rfl

/-- What is held at the end: all the satisfied literals and the accepted ones, and there is a
model of all of them. -/
structure Grown (f : Cnf) (satisfied falsified : List Int) (r : List Int × Bool) : Prop where
  held : ∃ accepted, accepted.Sublist falsified ∧ r.1 = satisfied ++ accepted ∧
    (r.2 = false → accepted = [])
  found : ∃ m, Models m f ∧ AllTrue m r.1

variable {E : Event StepKind (EvalMaxSAT K) → Prop} {satisfied falsified : List Int}

theorem wp_growSatisfied (sound : env.Sound) (free : Free E s)
    (nonzero : ∀ l ∈ falsified ++ satisfied, l ≠ 0)
    (model : ∃ m, Models m s.solver.clauses ∧ AllTrue m satisfied) :
    Wp E (growSatisfied env satisfied falsified) (fun r t => Asked s t ∧
      Grown s.solver.clauses satisfied falsified r) s := by
  refine wp_fold (fun xs (r : List Int × Bool) t => Asked s t ∧
    (∃ done, falsified = done ++ xs ∧ Grown s.solver.clauses satisfied done r)) ?_ ?_ _ _ _
    ⟨asked_refl s, [], rfl, ⟨[], List.Sublist.refl _, by simp, fun _ => rfl⟩, model⟩
  · rintro lit xs ⟨sat, modify⟩ t ⟨asked, done, shape, ⟨⟨accepted, sub, eq, none⟩, found⟩⟩
    replace eq : sat = satisfied ++ accepted := eq
    have next : falsified = (done ++ [lit]) ++ xs := by rw [shape]; simp
    have kept : Grown s.solver.clauses satisfied (done ++ [lit]) (sat, modify) :=
      ⟨⟨accepted, sub.trans (List.sublist_append_left _ _), eq, none⟩, found⟩
    have all : ∀ l ∈ sat ++ [lit], l ≠ 0 := by
      intro l mem
      apply nonzero
      rw [eq] at mem
      rw [next]
      simp only [List.mem_append, List.mem_cons, List.not_mem_nil, or_false] at mem ⊢
      rcases mem with (mem | mem) | mem
      · exact Or.inr mem
      · exact Or.inl (Or.inl (Or.inl (sub.subset mem)))
      · exact Or.inl (Or.inl (Or.inr mem))
    apply wp_bind
    apply wp_solverSolveLimited sound (free_asked free asked)
    · intro k model models' true_all
      rw [asked_clauses asked] at models'
      refine wp_pure ⟨asked_trans asked (asked_answered _ _ _), done ++ [lit], next,
        ⟨accepted ++ [lit], sub.append (List.Sublist.refl _), ?_, by simp⟩,
        assignment model, models', ?_⟩
      · simp only [eq, List.append_assoc]
      · intro l mem
        exact true_all l (List.mem_filter.mpr ⟨mem, by simpa using all l mem⟩)
    · intro k failed _
      exact wp_pure ⟨asked_trans asked (asked_answered _ _ _), done ++ [lit], next, kept⟩
    · intro k
      exact wp_pure ⟨asked_trans asked (asked_answered _ _ _), done ++ [lit], next, kept⟩
  · rintro r t ⟨asked, done, shape, grown⟩
    rw [List.append_nil] at shape
    rw [shape]
    exact ⟨asked, grown⟩

theorem wp_growFrom (lo : LocalOptimizer2) (sound : env.Sound) (free : Free E s)
    (models : Models (assignment sol) s.solver.clauses) :
    Wp E (growSatisfied env (lo.satisfiedLits sol) (lo.falsifiedLits sol).reverse) (fun r t =>
      Asked s t ∧ Grown s.solver.clauses (lo.satisfiedLits sol) (lo.falsifiedLits sol).reverse r)
      s := by
  refine wp_growSatisfied sound free ?_ ⟨assignment sol, models, ?_⟩
  · intro l mem
    apply softLits_nonzero lo
    simp only [LocalOptimizer2.satisfiedLits, LocalOptimizer2.falsifiedLits, List.mem_append,
      List.mem_reverse, List.mem_filter] at mem
    tauto
  · intro l mem
    simpa using (List.mem_filter.mp mem).2

theorem wp_heldModel {r : List Int × Bool} {Q : Bool → EvalMaxSAT K → Prop} (sound : env.Sound)
    (free : Free E s) (grown : Grown s.solver.clauses satisfied falsified r)
    (post : ∀ k model, Models (assignment model) s.solver.clauses →
      AllTrue (assignment model) r.1 → Q true (s.answered k (.sat model))) :
    Wp E (solverSolve env r.1) Q s := by
  apply wp_solverSolve sound free
  · intro k model models all
    exact post k model models all
  · intro k failed refuted
    obtain ⟨m, models, all⟩ := grown.found
    exact absurd (fun l mem => all l (List.mem_of_mem_filter mem)) (refuted m models)

theorem getSolution_long {S : Solver_cadical K} {model : List Bool} (last : S.last = .sat model) :
    S.nVar < S.getSolution.length := by
  simp only [Solver_cadical.getSolution, last, List.length_append, List.length_replicate]
  omega

theorem wp_finish {r : List Int × Bool} (sound : env.Sound) (free : Free E s)
    (models : Models (assignment sol) s.solver.clauses)
    (grown : Grown s.solver.clauses (lo.satisfiedLits sol) falsified r) :
    Wp E (do
      if r.2 then
        let _ ← solverSolve env r.1
        let s ← .read
        let solution := s.solver.getSolution
        return (lo.calculateCostAssign solution, solution)
      else return (lo.calculateCostAssign sol, sol)) (fun x t => Asked s t ∧
        x.1 = lo.calculateCostAssign x.2 ∧ Models (assignment x.2) s.solver.clauses ∧
        AllTrue (assignment x.2) r.1 ∧ (x.2 = sol ∨ s.solver.nVar < x.2.length)) s := by
  refine wp_ite (fun _ => ?_)
    (fun unchanged => wp_pure ⟨asked_refl s, rfl, models, ?_, Or.inl rfl⟩)
  · apply wp_bind
    apply wp_heldModel sound free grown
    intro k model models' all
    apply wp_bind_read
    have long : s.solver.nVar < (s.answered k (.sat model)).solver.getSolution.length :=
      getSolution_long (S := (s.answered k (.sat model)).solver) rfl
    refine wp_pure ⟨asked_answered _ _ _, rfl, ?_⟩
    rw [getSolution_assignment rfl]
    exact ⟨models', all, Or.inr long⟩
  · obtain ⟨accepted, _, eq, none⟩ := grown.held
    rw [none (by simpa using unchanged), List.append_nil] at eq
    rw [eq]
    intro l mem
    simpa using (List.mem_filter.mp mem).2

theorem wp_optimize (sound : env.Sound) (free : Free E s)
    (models : Models (assignment sol) s.solver.clauses) :
    Wp E (lo.optimize env sol) (fun r t => Asked s t ∧
      r.1 = lo.calculateCostAssign r.2 ∧ Models (assignment r.2) s.solver.clauses) s := by
  rw [optimize_eq]
  apply wp_bind
  apply wp_mono (wp_growFrom lo sound free models)
  rintro r t ⟨asked, grown⟩
  rw [← asked_clauses asked] at grown models ⊢
  apply wp_mono (wp_finish sound (free_asked free asked) models grown)
  rintro x u ⟨asked', counted, models', _, _⟩
  exact ⟨asked_trans asked asked', counted, models'⟩

end Growing

section Loss

def LocalOptimizer2.lossAt (lo : LocalOptimizer2) (sol : List Bool) (v : Nat) : Nat :=
  if (0 < lo.poids.get v ∧ sol.getD v false = false) ∨
      (lo.poids.get v < 0 ∧ sol.getD v false = true) then (lo.poids.get v).natAbs else 0

def LocalOptimizer2.loss (lo : LocalOptimizer2) (sol : List Bool) : Nat :=
  ((List.range lo.poids.size).tail.map (lo.lossAt sol)).sum

theorem u64_foldl {n : Nat} (g : Nat → Nat) (step : Nat → Nat → Nat)
    (adds : ∀ c x (w : Int), u64 (step c x + w) = u64 (c + g x + w)) (xs : List Nat) (w : Int) :
    u64 (xs.foldl step n + w) = u64 (n + (xs.map g).sum + w) := by
  induction xs generalizing n with
  | nil => simp
  | cons x xs ih =>
    rw [List.foldl_cons, ih, List.map_cons, List.sum_cons]
    have first := adds n x ((xs.map g).sum + w)
    rw [← add_assoc] at first
    rw [first]
    congr 1
    push_cast
    omega

theorem calculateCostAssign_loss (lo : LocalOptimizer2) (sol : List Bool) :
    lo.calculateCostAssign sol = u64 (lo.initialWeight + lo.loss sol) := by
  rw [LocalOptimizer2.calculateCostAssign, u64_foldl (lo.lossAt sol)]
  · rw [LocalOptimizer2.loss]
    congr 1
    omega
  · intro c v w
    simp only [LocalOptimizer2.lossAt]
    generalize lo.poids.get v = x
    cases sol.getD v false
    · by_cases pos : 0 < x
      · simp only [pos, if_true, and_self, true_or, u64_add]
        congr 1
        omega
      · simp [pos]
    · by_cases pos : 0 < x
      · simp [pos, show ¬ x < 0 by omega]
      · by_cases neg : x < 0
        · simp only [pos, neg, if_true, if_false, and_self, or_true, u64, i64, Int.bmod]
          omega
        · simp [pos, neg]

theorem softLit_of_weight {v : Nat} (mem : v ∈ (List.range lo.poids.size).tail) :
    (0 < lo.poids.get v → (v : Int) ∈ lo.softLits) ∧
      (lo.poids.get v < 0 → -(v : Int) ∈ lo.softLits) := by
  constructor
  · intro pos
    exact List.mem_filterMap.mpr ⟨v, mem, by rw [if_pos pos]⟩
  · intro neg
    exact List.mem_filterMap.mpr ⟨v, mem, by rw [if_neg (by omega), if_pos neg]⟩

/-- A solution that satisfies what another one satisfies loses no more. -/
theorem loss_le {final : List Bool} (keeps : AllTrue (assignment final) (lo.satisfiedLits sol)) :
    lo.loss final ≤ lo.loss sol := by
  apply List.sum_le_sum
  intro v mem
  obtain ⟨positive, negative⟩ := softLit_of_weight mem
  have kept : ∀ l ∈ lo.softLits, litTrue (assignment sol) l = true →
      litTrue (assignment final) l = true := by
    intro l soft satisfied
    exact keeps l (List.mem_filter.mpr ⟨soft, by simpa using satisfied⟩)
  simp only [LocalOptimizer2.lossAt]
  by_cases pos : 0 < lo.poids.get v
  · have nonzero := softLits_nonzero lo v (positive pos)
    have same := kept v (positive pos)
    rw [litTrue_natCast (by omega), litTrue_natCast (by omega)] at same
    simp only [assignment] at same
    cases value : sol.getD v false
    · simp only [pos, and_self, true_or, if_true]
      split <;> omega
    · rw [same value]
  · by_cases neg : lo.poids.get v < 0
    · have nonzero := softLits_nonzero lo _ (negative neg)
      have same := kept _ (negative neg)
      rw [litTrue_neg (by omega), litTrue_neg (by omega), litTrue_natCast (by omega),
        litTrue_natCast (by omega)] at same
      simp only [assignment, Bool.not_eq_true'] at same
      cases value : sol.getD v false
      · rw [same value]
      · simp only [pos, neg, and_self, or_true, if_true]
        split <;> omega
    · simp [pos, neg]

theorem calculateCostAssign_mono {final : List Bool}
    (keeps : AllTrue (assignment final) (lo.satisfiedLits sol))
    (fits : lo.initialWeight + lo.loss sol < 2 ^ 64) :
    lo.calculateCostAssign final ≤ lo.calculateCostAssign sol := by
  have less := loss_le keeps
  rw [calculateCostAssign_loss, calculateCostAssign_loss, ← Nat.cast_add, ← Nat.cast_add,
    u64_of_nat (by omega), u64_of_nat fits]
  omega

end Loss

/-- The local optimizer ends with a model that satisfies all the soft literals it holds, and
what it returns is what it counts for that model, which covers the weighted variables as the first
one does. Where the cost of the first model fits in 64 bits, the last one costs no more. -/
theorem optimize_keeps_satisfied (sound : env.Sound)
    (models : Models (assignment sol) s.solver.clauses) (covers : lo.poids.size ≤ sol.length) :
    ∃ loop r t rest value final u accepted,
      (growSatisfied env (lo.satisfiedLits sol) (lo.falsifiedLits sol).reverse).Ends s loop
        (.done r) t ∧
      (lo.optimize env sol).Ends s (loop ++ rest) (.done (value, final)) u ∧
      r.1 = lo.satisfiedLits sol ++ accepted ∧ accepted.Sublist (lo.falsifiedLits sol).reverse ∧
      (r.2 = true → ∃ tr v, (solverSolve env r.1).Ends t tr (.done true) v) ∧
      Models (assignment final) s.solver.clauses ∧ AllTrue (assignment final) r.1 ∧
      value = lo.calculateCostAssign final ∧
      (lo.poids.size ≤ s.solver.nVar + 1 → lo.poids.size ≤ final.length) ∧
      (lo.initialWeight + lo.loss sol < 2 ^ 64 → value ≤ lo.calculateCostAssign sol) := by
  obtain ⟨loop, r, t, first, _, asked, grown⟩ :=
    wp_growFrom lo sound (free_every s) models
  obtain ⟨accepted, sub, eq, _⟩ := grown.held
  have modelsT := models
  have grownT := grown
  rw [← asked_clauses asked] at modelsT grownT
  obtain ⟨rest, ⟨value, final⟩, u, second, _, _, counted, models', all, long⟩ :=
    wp_finish sound (free_every t) modelsT grownT
  rw [asked_clauses asked] at models'
  replace counted : value = lo.calculateCostAssign final := counted
  have vars : t.solver.nVar = s.solver.nVar := asked_vars asked
  refine ⟨loop, r, t, rest, value, final, u, accepted, first, ?_, eq, sub, ?_, models', all, counted,
    ?_, ?_⟩
  · rw [optimize_eq]
    exact Prog.ends_bind first second
  · intro _
    obtain ⟨tr, b, v, ends, _, found⟩ := wp_heldModel (Q := fun b _ => b = true) sound (free_every t)
      grownT fun _ _ _ _ => rfl
    rw [found] at ends
    exact ⟨tr, v, ends⟩
  · intro known
    rcases long with same | long
    · rw [show final = sol from same]
      exact covers
    · replace long : t.solver.nVar < final.length := long
      omega
  · intro fits
    rw [counted]
    refine calculateCostAssign_mono (fun l mem => all l ?_) fits
    rw [eq]
    exact List.mem_append_left _ mem

theorem optimize_keeps_satisfied_small : ∃ loop r t rest value final u accepted,
    (growSatisfied patientBackEnd [2] [1]).Ends (newVars 2 (fresh ())) loop (.done r) t ∧
      ((⟨⟨[0, 5, 3]⟩, 0⟩ : LocalOptimizer2).optimize patientBackEnd [false, false, true]).Ends
        (newVars 2 (fresh ())) (loop ++ rest) (.done (value, final)) u ∧
      r.1 = [2] ++ accepted ∧ AllTrue (assignment final) r.1 ∧ 3 ≤ final.length ∧ value ≤ 5 := by
  obtain ⟨loop, r, t, rest, value, final, u, accepted, first, whole, held, _, _, _, all, _, covers,
      less⟩ :=
    @optimize_keeps_satisfied _ patientBackEnd ⟨⟨[0, 5, 3]⟩, 0⟩ (newVars 2 (fresh ()))
      [false, false, true] patient_sound (by decide) (by decide)
  exact ⟨loop, r, t, rest, value, final, u, accepted, first, whole, held, all, covers (by decide),
    less (by decide)⟩

/-- The cost wraps around: a better model may look worse. -/
theorem wrapped_cost_worsens : ¬ ∀ (env : Env Unit) (lo : LocalOptimizer2) (sol : List Bool)
    (s : EvalMaxSAT Unit) (tr : List (Event StepKind (EvalMaxSAT Unit))) (value : Nat)
    (final : List Bool) (t : EvalMaxSAT Unit), env.Sound →
    Models (assignment sol) s.solver.clauses → lo.poids.size ≤ sol.length →
    (lo.optimize env sol).Ends s tr (.done (value, final)) t →
      value ≤ lo.calculateCostAssign sol := by
  intro never_worse
  have test : endTest ((⟨⟨[0, 2]⟩, 2 ^ 64 - 1⟩ : LocalOptimizer2).optimize patientBackEnd
      [false, false]) 20 (fun _ r _ => decide (r.1 = 2 ^ 64 - 1)) (fresh ()) = true := by
    decide +kernel
  obtain ⟨tr, ⟨value, final⟩, t, ends, worse⟩ := ends_of_endTest test
  have le := never_worse _ _ _ _ _ _ _ _ patient_sound (by decide) (by decide) ends
  have cost : (⟨⟨[0, 2]⟩, 2 ^ 64 - 1⟩ : LocalOptimizer2).calculateCostAssign [false, false] = 1 := by
    decide
  have value_eq : value = 2 ^ 64 - 1 := of_decide_eq_true worse
  rw [cost, value_eq] at le
  omega

end EvalMaxSat
