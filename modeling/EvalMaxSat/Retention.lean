import EvalMaxSat.Solve
import EvalMaxSat.VariableNumbers

/-!
The calls, the at-most-one passes and the treatment of cores keep the stored solution and lose no
variable.
-/
namespace EvalMaxSat
open Literals OrderedContainers EvalMaxSAT StepProgram

variable {K : Type} {env : Env K} {s t u : EvalMaxSAT K}

section Sinks
variable {τ : Type} {R : τ → τ → Prop} {get : TotTree.Getter τ}

theorem getChild_relates (gets : ∀ t i s, R s (get t i s).2.2) (c : Child) (l r : TotTree) (s : τ) :
    R s (TotTree.getChild get c l r s).2.2.2 := by
  unfold TotTree.getChild
  cases c.1 with
  | left => exact gets l c.2 s
  | right => exact gets r c.2 s

variable [ClauseSink τ]

/-- A relation between a solver and what calls of the totalizer make of it. -/
structure SinkRelation (R : τ → τ → Prop) : Prop where
  refl : ∀ s, R s s
  trans : ∀ {s t u}, R s t → R t u → R s u
  newVar : ∀ s, R s (ClauseSink.newVar s).2
  addClause : ∀ c s, R s (ClauseSink.addClause c s)

theorem getImplicant_relates (rel : SinkRelation R) (gets : ∀ t i s, R s (get t i s).2.2)
    (cs : List Child) (l r : TotTree) (s : τ) : R s (TotTree.getImplicant get cs l r s).2.2.2 := by
  induction cs generalizing l r s with
  | nil => exact rel.refl s
  | cons c cs ih => exact rel.trans (getChild_relates gets c l r s) (ih _ _ _)

theorem addImplications_relates (rel : SinkRelation R) (gets : ∀ t i s, R s (get t i s).2.2)
    (x : Int) (imps : List (List Child)) (l r : TotTree) (s : τ) :
    R s (TotTree.addImplications get x imps l r s).2.2 := by
  induction imps generalizing l r s with
  | nil => exact rel.refl s
  | cons imp imps ih =>
    have first := getImplicant_relates rel gets imp l r s
    exact rel.trans (rel.trans first (rel.addClause _ _)) (ih _ _ _)

theorem getAt_relates (rel : SinkRelation R) (h : Nat) (t : TotTree) (i : Nat) (s : τ) :
    R s (TotTree.getAt h t i s).2.2 := by
  induction h generalizing t i s with
  | zero => cases t <;> exact rel.refl s
  | succ h ih =>
    cases t with
    | leaf v => exact rel.refl s
    | node n vs l r =>
      unfold TotTree.getAt
      split
      · exact rel.refl s
      · split
        · exact rel.refl s
        · exact getChild_relates ih _ l r s
        · exact rel.trans (rel.newVar s) (addImplications_relates rel ih _ _ l r _)

theorem atMost_relates (rel : SinkRelation R) (c : CardIncremental_Lazy) (k : Nat) (s : τ) :
    R s (c.atMost k s).2.2 := by
  unfold CardIncremental_Lazy.atMost
  split
  · exact rel.refl s
  · exact getAt_relates rel _ _ k s

end Sinks

section Updates

def Retains (s t : EvalMaxSAT K) : Prop := t.solution = s.solution ∧ s.solver.nVar ≤ t.solver.nVar

theorem retains_refl (s : EvalMaxSAT K) : Retains s s := ⟨rfl, Nat.le_refl _⟩

theorem retains_trans (first : Retains s t) (second : Retains t u) : Retains s u :=
  ⟨second.1.trans first.1, first.2.trans second.2⟩

theorem retains_of_eq (solution : t.solution = s.solution) (solver : t.solver = s.solver) :
    Retains s t := ⟨solution, Nat.le_of_eq (congrArg Solver_cadical.nVar solver.symm)⟩

theorem retains_newVar (s : EvalMaxSAT K) : Retains s s.newVar.2 := ⟨rfl, Nat.le_succ _⟩

theorem retains_clause (c : Clause) (s : EvalMaxSAT K) :
    Retains s { s with solver := s.solver.addClause c } := ⟨rfl, (addClause_count c s.solver).1⟩

theorem retains_sink : SinkRelation (Retains (K := K)) :=
  ⟨retains_refl, retains_trans, retains_newVar, retains_clause⟩

theorem retains_newSoftVar (value : Bool) (weight : Int) (s : EvalMaxSAT K) :
    Retains s (s.newSoftVar value weight).2 := ⟨rfl, Nat.le_succ _⟩

theorem retains_nextLevel (e : LitCard) (o : CardObject) (s : EvalMaxSAT K) :
    Retains s (s.nextLevel e o).2 := by
  have made := atMost_relates retains_sink o.card (e.atMost + 1) s
  unfold EvalMaxSAT.nextLevel
  dsimp only
  split <;> exact made

theorem retains_resetEntry (lit : Int) (s : EvalMaxSAT K) : Retains s (s.resetEntry lit) := by
  unfold EvalMaxSAT.resetEntry
  split <;> exact retains_of_eq rfl rfl

theorem retains_relax (lit : Int) (s : EvalMaxSAT K) : Retains s (s.relax lit).2 := by
  unfold EvalMaxSAT.relax
  split
  · exact retains_refl s
  · split
    · exact retains_refl s
    · exact retains_trans (retains_nextLevel _ _ s) (retains_resetEntry lit _)

theorem retains_clearUnit (lit : Int) (s : EvalMaxSAT K) : Retains s (s.clearUnit lit) := by
  unfold EvalMaxSAT.clearUnit
  split
  · exact retains_refl s
  · split
    · exact retains_relax lit _
    · exact retains_of_eq rfl rfl

theorem retains_addHardClause (clause : Clause) (s : EvalMaxSAT K) :
    Retains s (s.addHardClause clause) := by
  unfold EvalMaxSAT.addHardClause
  split
  · exact retains_trans (retains_clearUnit _ s) (retains_clause _ _)
  · exact retains_clause clause s

theorem retains_newVars (n : Nat) (s : EvalMaxSAT K) : Retains s (newVars n s) := by
  induction n generalizing s with
  | zero => exact retains_refl s
  | succ n ih => exact retains_trans (retains_newVar s) (ih _)

theorem retains_shiftWeight (lit weight : Int) (s : EvalMaxSAT K) :
    Retains s (s.shiftWeight lit weight) := by
  unfold EvalMaxSAT.shiftWeight
  split <;> exact retains_of_eq rfl rfl

theorem retains_reindex (lit : Int) (s : EvalMaxSAT K) : Retains s (s.reindex lit) := by
  unfold EvalMaxSAT.reindex
  split
  · exact retains_relax lit s
  · split <;> exact retains_of_eq rfl rfl

theorem retains_addPositiveWeight (lit weight : Int) (s : EvalMaxSAT K) :
    Retains s (s.addPositiveWeight lit weight) := by
  unfold EvalMaxSAT.addPositiveWeight
  split
  · exact retains_of_eq rfl rfl
  · exact retains_trans (retains_shiftWeight lit weight s) (retains_reindex lit _)

theorem retains_addWeight (lit weight : Int) (s : EvalMaxSAT K) :
    Retains s (s.addWeight lit weight) := by
  have first := retains_newVars (lit.natAbs + 1 - s.poids.size) s
  unfold EvalMaxSAT.addWeight
  dsimp only
  split
  · exact retains_trans first (retains_addPositiveWeight _ _ _)
  · exact retains_trans first (retains_addPositiveWeight _ _ _)

theorem retains_addHardClauses (lit : Int) (clause : Clause) (s : EvalMaxSAT K) :
    Retains s (clause.foldl (fun s l => s.addHardClause [lit, l]) s) := by
  induction clause generalizing s with
  | nil => exact retains_refl s
  | cons l clause ih => exact retains_trans (retains_addHardClause _ s) (ih _)

theorem retains_addSoftClause (clause : Clause) (w : Int) (s : EvalMaxSAT K) :
    Retains s (s.addSoftClause clause w).2 := by
  unfold EvalMaxSAT.addSoftClause
  split
  · exact retains_of_eq rfl rfl
  · exact retains_addWeight _ w s
  · split
    · exact retains_trans (retains_newSoftVar true w s) (retains_addHardClause _ _)
    · exact retains_trans (retains_newSoftVar true _ s) (retains_addHardClauses _ _ _)

theorem retains_addClause {clause : Clause} {w : Option Int} {x : Int}
    (added : s.addClause clause w = some (x, t)) : Retains s t := by
  unfold EvalMaxSAT.addClause at added
  split at added
  · rw [← (Prod.mk.inj (Option.some.inj added)).2]
    exact retains_addHardClause clause s
  · split at added
    · rw [← (Prod.mk.inj (Option.some.inj added)).2]
      exact retains_refl s
    · split at added
      · simp at added
      · rename_i w _ _
        have same : t = (s.addSoftClause clause w).2 := by rw [Option.some.inj added]
        rw [same]
        exact retains_addSoftClause clause w s

theorem retains_apply {v : Update} {x : Int} (applied : v.apply s = some (x, t)) : Retains s t := by
  have last : ∀ y : Int × EvalMaxSAT K, some y = some (x, t) → t = y.2 :=
    fun y eq => congrArg Prod.snd (Option.some.inj eq).symm
  cases v with
  | newVar =>
    rw [last _ applied]
    exact retains_newVar s
  | newSoftVar value weight =>
    rw [last _ applied]
    exact retains_newSoftVar value weight s
  | addClause clause w => exact retains_addClause applied
  | addWeight lit weight =>
    rw [last _ applied]
    exact retains_addWeight lit weight s
  | _ =>
    rw [last _ applied]
    exact retains_of_eq rfl rfl

end Updates

section Passes
/-- No solution, or one with an entry for each of `n` variables. -/
def Covering (n : Nat) (sol : List Bool) : Prop := sol = [] ∨ n < sol.length

/-- A step that stores a solution stores one for all variables that there are; the others keep the
solution and lose no variable. -/
structure StoresOrRetains (e : Event StepKind (EvalMaxSAT K)) : Prop where
  stores : e.label = .bound → e.after.solver.nVar = e.before.solver.nVar ∧
    Covering e.after.solver.nVar e.after.solution
  retains : e.label ≠ .bound → Retains e.before e.after

theorem retaining {l : StepKind} (other : l ≠ .bound) (retains : Retains s t) :
    StoresOrRetains ⟨l, s, t⟩ := ⟨fun bound => absurd bound other, fun _ => retains⟩

theorem stepwise_step {α : Type} {l : StepKind} {f : EvalMaxSAT K → α × EvalMaxSAT K}
    (other : l ≠ .bound) (retains : ∀ s, Retains s (f s).2) :
    Stepwise StoresOrRetains (.act l f : Program K α) :=
  stepwise_act fun s => retaining other (retains s)

theorem along_query (as : List Int) (lim : Limit) (s : EvalMaxSAT K) :
    Along StoresOrRetains (query env as lim) (fun _ t => t.solver.nVar = s.solver.nVar) s :=
  along_act (retaining (by simp) ⟨rfl, Nat.le_refl _⟩) rfl

theorem along_solverSolve (as : List Int) (s : EvalMaxSAT K) :
    Along StoresOrRetains (solverSolve env as) (fun _ t => t.solver.nVar = s.solver.nVar) s := by
  apply along_bind
  apply along_mono (along_query as .unlimited s)
  intro a t same
  cases a <;> exact along_pure same

theorem along_solverSolveLimited (as : List Int) (lim : Limit) (except : Int) (s : EvalMaxSAT K) :
    Along StoresOrRetains (solverSolveLimited env as lim except)
      (fun _ t => t.solver.nVar = s.solver.nVar) s := by
  apply along_bind
  apply along_mono (along_query _ lim s)
  intro a t same
  cases a <;> exact along_pure same

theorem stepwise_solverSolve (as : List Int) : Stepwise StoresOrRetains (solverSolve env as) :=
  fun s => along_mono (along_solverSolve as s) fun _ _ _ => trivial

theorem stepwise_solverSolveLimited (as : List Int) (lim : Limit) (except : Int) :
    Stepwise StoresOrRetains (solverSolveLimited env as lim except) :=
  fun s => along_mono (along_solverSolveLimited as lim except s) fun _ _ _ => trivial

theorem stepwise_solverPropagate (assum : List Int) :
    Stepwise StoresOrRetains (solverPropagate env assum) :=
  stepwise_step (by simp) fun _ => ⟨rfl, Nat.le_refl _⟩

theorem stepwise_withCore {α : Type} (f : K → α × K) : Stepwise StoresOrRetains (withCore f) :=
  stepwise_step (by simp) fun _ => ⟨rfl, Nat.le_refl _⟩

theorem stepwise_clock : Stepwise StoresOrRetains (clock env) := stepwise_withCore env.clock

theorem stepwise_addUnit {kind : StepKind} (other : kind ≠ .bound) (lit : Int) :
    Stepwise StoresOrRetains (addUnit kind lit : Program K Unit) := stepwise_step other fun s => retains_addHardClause [lit] s

theorem retains_peel (w : Int) (fuel i : Nat) (clause : Clause) (s : EvalMaxSAT K) :
    Retains s (peel w fuel i clause s).2 := by
  induction fuel generalizing i clause s with
  | zero => exact retains_refl s
  | succ fuel ih =>
    unfold peel
    split
    · exact retains_refl s
    · dsimp only
      split
      · refine retains_trans ?_ (ih _ _ _)
        exact retains_relax _ _
      · refine retains_trans ?_ (ih _ _ _)
        exact retains_of_eq rfl rfl

theorem retains_amoRound (clause : Clause) (s : EvalMaxSAT K) : Retains s (amoRound clause s).2 := by
  have peeled := retains_peel (minWeightFrom (s.weight (clause.headD 0)) s clause.tail) clause.length 0
    clause s
  unfold amoRound
  dsimp only
  split
  · exact peeled
  · rename_i added
    have more := retains_addClause added
    exact ⟨more.1.trans peeled.1, peeled.2.trans more.2⟩

theorem stepwise_processAtMostOne (clause : Clause) :
    Stepwise StoresOrRetains (processAtMostOne clause : Program K (List Int)) := by
  apply stepwise_bind (stepwise_step (by simp) fun s => retains_refl s)
  intro _
  apply stepwise_loop
  rintro ⟨clause, newAssum⟩
  apply stepwise_ite
  · apply stepwise_bind (stepwise_step (by simp) fun s => retains_amoRound clause s)
    intro r
    cases r with
    | none => exact stepwise_exit
    | some r => exact stepwise_pure _
  · exact stepwise_pure _

theorem stepwise_buildGraph (assumption : List Int) :
    Stepwise StoresOrRetains (buildGraph env assumption) := by
  apply stepwise_loop
  rintro ⟨i, assumption, conn⟩
  dsimp only
  split
  · exact stepwise_pure _
  · apply stepwise_bind (stepwise_solverPropagate _)
    intro r
    cases r with
    | some prop => exact stepwise_pure _
    | none =>
      apply stepwise_bind (stepwise_addUnit (by simp) _)
      exact fun _ => stepwise_pure _

theorem stepwise_placeNewAssum (g : Slots) (q : Nat) (lit : Int) :
    Stepwise StoresOrRetains (placeNewAssum env g q lit) := by
  apply stepwise_bind (stepwise_solverPropagate _)
  intro r
  cases r with
  | some prop => exact stepwise_pure _
  | none =>
    apply stepwise_bind (stepwise_addUnit (by simp) _)
    exact fun _ => stepwise_pure _

theorem stepwise_adapt_am1_exact : Stepwise StoresOrRetains (adapt_am1_exact env) := by
  apply stepwise_read
  intro s
  apply stepwise_ite (stepwise_pure _)
  apply stepwise_bind (stepwise_buildGraph _)
  rintro ⟨assumption, conn⟩
  apply stepwise_ite (stepwise_pure _)
  apply stepwise_loop
  intro g
  apply stepwise_bind (stepwise_withCore _)
  intro qmax
  apply stepwise_ite (stepwise_pure _)
  apply stepwise_bind (stepwise_processAtMostOne _)
  intro newAssum
  apply stepwise_bind (stepwise_fold (fun g x => stepwise_placeNewAssum g _ _) _ _)
  exact fun _ => stepwise_pure _

theorem stepwise_keepExclusive (a : Int) (rest : List Int) :
    Stepwise StoresOrRetains (keepExclusive env a rest) := by
  apply stepwise_fold
  intro kept b
  apply stepwise_bind (stepwise_solverSolveLimited _ _ _)
  intro r
  split <;> exact stepwise_pure _

theorem stepwise_reduceCliqueV2 (clique : List Int) :
    Stepwise StoresOrRetains (reduceCliqueV2 env clique) := by
  apply stepwise_read
  intro s
  apply stepwise_loop
  rintro ⟨kept, todo⟩
  cases todo with
  | nil => exact stepwise_pure _
  | cons a rest =>
    apply stepwise_bind (stepwise_keepExclusive a rest)
    exact fun _ => stepwise_pure _

theorem stepwise_sweepVariables {found : Int → List Int → Program K Nat}
    (finds : ∀ lit prop, Stepwise StoresOrRetains (found lit prop)) : Stepwise StoresOrRetains (sweepVariables env found) := by
  apply stepwise_loop
  rintro ⟨var, nbCliqueFound⟩
  apply stepwise_read
  intro s
  apply stepwise_ite (stepwise_pure _)
  apply stepwise_ite (stepwise_pure _)
  apply stepwise_bind (stepwise_solverPropagate _)
  intro r
  cases r with
  | some prop =>
    apply stepwise_bind (finds _ prop)
    exact fun _ => stepwise_pure _
  | none =>
    apply stepwise_bind (stepwise_addUnit (by simp) _)
    exact fun _ => stepwise_pure _

theorem stepwise_pairRefuted (lit : Int) (prop : List Int) :
    Stepwise StoresOrRetains (pairRefuted lit prop : Program K Nat) := by
  apply stepwise_bind
  · apply stepwise_fold
    intro r litProp
    apply stepwise_read
    intro s
    apply stepwise_ite (stepwise_pure _)
    apply stepwise_ite
    · apply stepwise_bind (stepwise_processAtMostOne _)
      intro _
      apply stepwise_read
      exact fun _ => stepwise_pure _
    · exact stepwise_pure _
  · exact fun _ => stepwise_pure _

theorem stepwise_reduceAndProcess (lit : Int) (prop : List Int) :
    Stepwise StoresOrRetains (reduceAndProcess env lit prop) := by
  apply stepwise_read
  intro s
  apply stepwise_ite (stepwise_pure _)
  apply stepwise_bind (stepwise_reduceCliqueV2 _)
  intro clique
  apply stepwise_bind (stepwise_processAtMostOne _)
  exact fun _ => stepwise_pure _

theorem stepwise_adapt_am1_VeryFastHeuristic :
    Stepwise StoresOrRetains (adapt_am1_VeryFastHeuristic env) :=
  stepwise_sweepVariables (stepwise_pairRefuted)

theorem stepwise_adapt_am1_FastHeuristicV7 :
    Stepwise StoresOrRetains (adapt_am1_FastHeuristicV7 env) :=
  stepwise_sweepVariables (stepwise_reduceAndProcess)

end Passes

section Cores
theorem stepwise_hardenLits (lits : List Int) (nbHarden : Nat) (assum : OSet Int) :
    Stepwise StoresOrRetains (hardenLits lits nbHarden assum : Program K (Nat × OSet Int)) := by
  apply stepwise_fold
  intro r lit
  apply stepwise_bind (stepwise_addUnit (by simp) _)
  exact fun _ => stepwise_pure _

theorem stepwise_dropBucket (w : Nat) : Stepwise StoresOrRetains (.act .dropBucket fun s =>
    ((), { s with mapWeight2Assum := s.mapWeight2Assum.eraseKey w }) : Program K Unit) :=
  stepwise_step (by simp) fun _ => retains_of_eq rfl rfl

theorem stepwise_harden (assum : OSet Int) :
    Stepwise StoresOrRetains (harden assum : Program K (Nat × OSet Int)) := by
  apply stepwise_read
  intro s
  apply stepwise_ite (stepwise_pure _)
  apply stepwise_ite (stepwise_pure _)
  apply stepwise_ite (stepwise_pure _)
  apply stepwise_loop
  rintro ⟨nbHarden, assum⟩
  apply stepwise_read
  intro s
  dsimp only
  split
  · exact stepwise_pure _
  · apply stepwise_ite (stepwise_pure _)
    apply stepwise_bind (stepwise_hardenLits _ _ _)
    rintro ⟨nbHarden, assum⟩
    apply stepwise_read
    intro s
    apply stepwise_ite (stepwise_pure _)
    split
    · exact stepwise_pure _
    · apply stepwise_ite
      · apply stepwise_bind (stepwise_dropBucket _)
        exact fun _ => stepwise_pure _
      · exact stepwise_pure _

theorem stepwise_chooseNextMinWeight (minWeightToConsider : Nat) :
    Stepwise StoresOrRetains (chooseNextMinWeight env minWeightToConsider) := by
  apply stepwise_read
  intro s
  apply stepwise_ite (stepwise_pure _)
  apply stepwise_loop
  intro minWeight
  apply stepwise_read
  intro s
  split
  · exact stepwise_pure _
  · apply stepwise_ite
    · apply stepwise_bind (stepwise_dropBucket _)
      intro _
      apply stepwise_read
      intro s
      apply stepwise_ite <;> exact stepwise_pure _
    · split
      · exact stepwise_pure _
      · apply stepwise_ite <;> exact stepwise_pure _

theorem stepwise_shortenTail (b : Nat) (conflict : Clause) :
    Stepwise StoresOrRetains (shortenTail env b conflict) := by
  apply stepwise_loop
  intro conflict
  apply stepwise_bind (stepwise_solverSolveLimited _ _ _)
  intro r
  split
  · apply stepwise_ite (stepwise_pure _)
    apply stepwise_bind (stepwise_clock)
    intro struck
    apply stepwise_ite
    · apply stepwise_read
      exact fun _ => stepwise_pure _
    · exact stepwise_pure _
  · exact stepwise_pure _

theorem stepwise_dropRedundant (b : Nat) (conflict : Clause) :
    Stepwise StoresOrRetains (dropRedundant env b conflict) := by
  apply stepwise_loop
  rintro ⟨i, conflict⟩
  cases i with
  | zero => exact stepwise_pure _
  | succ i =>
    have rest : ∀ conflict : Clause, Stepwise StoresOrRetains (clock env >>= fun struck =>
        if struck = true then pure (.inr conflict) else pure (.inl (i, conflict)) :
          Program K ((Nat × Clause) ⊕ Clause)) := by
      intro conflict
      apply stepwise_bind (stepwise_clock)
      intro struck
      apply stepwise_ite <;> exact stepwise_pure _
    apply stepwise_bind (stepwise_solverSolveLimited _ _ _)
    intro r
    dsimp only
    split <;> exact stepwise_bind (stepwise_pure _) rest

theorem stepwise_oneMinimize (conflict : Clause) (b : Nat) :
    Stepwise StoresOrRetains (oneMinimize env conflict b) := by
  apply stepwise_read
  intro s
  apply stepwise_ite (stepwise_pure _)
  apply stepwise_bind (stepwise_shortenTail _ _)
  rintro ⟨p, conflict⟩
  cases p with
  | some p => exact stepwise_pure _
  | none =>
    apply stepwise_read
    intro s
    apply stepwise_bind (stepwise_dropRedundant _ _)
    exact fun _ => stepwise_pure _

theorem stepwise_getConflict (assum : OSet Int) :
    Stepwise StoresOrRetains (getConflict assum : Program K Clause) := stepwise_read fun _ => stepwise_pure _

theorem stepwise_goesOn (r : Search) : Stepwise StoresOrRetains (goesOn env r) := by
  apply stepwise_ite (stepwise_pure _)
  apply stepwise_bind (stepwise_clock)
  exact fun _ => stepwise_pure _

theorem stepwise_betterCore (assum : OSet Int) (conflict : Clause) :
    Stepwise StoresOrRetains (betterCore env assum conflict) := by
  apply stepwise_loop
  intro r
  apply stepwise_bind (stepwise_goesOn r)
  intro more
  apply stepwise_ite (stepwise_pure _)
  apply stepwise_bind (stepwise_getConflict assum)
  intro tmp
  apply stepwise_bind (stepwise_oneMinimize tmp 10)
  rintro ⟨p, tmp⟩
  apply stepwise_ite (stepwise_pure _)
  apply stepwise_bind (stepwise_clock)
  intro struck
  apply stepwise_ite (stepwise_pure _)
  apply stepwise_bind (stepwise_withCore _)
  intro vAssum
  apply stepwise_bind (stepwise_solverSolveLimited _ _ _)
  intro r
  split <;> exact stepwise_pure _

theorem stepwise_findCore (assum : OSet Int) (conflict : Clause) :
    Stepwise StoresOrRetains (findCore env assum conflict) := by
  have rest : ∀ conflict : Clause, Stepwise StoresOrRetains (if 1 < conflict.length then
      oneMinimize env conflict 1000 >>= fun r => pure r.2 else pure conflict : Program K Clause) := by
    intro conflict
    apply stepwise_ite
    · apply stepwise_bind (stepwise_oneMinimize conflict 1000)
      exact fun _ => stepwise_pure _
    · exact stepwise_pure _
  apply stepwise_read
  intro s
  apply stepwise_ite
  · exact stepwise_bind (stepwise_betterCore assum conflict) rest
  · exact stepwise_bind (stepwise_pure _) rest

theorem retains_lightenLit (minWeight lit : Int) (s : EvalMaxSAT K) :
    Retains s (lightenLit minWeight lit s) := by
  unfold lightenLit
  dsimp only
  split
  · split <;> exact retains_of_eq rfl rfl
  · exact retains_of_eq rfl rfl

/-- A loop over literals or cardinalities that builds up assumptions on the way. -/
theorem retains_foldl {α : Type} {f : OSet Int × EvalMaxSAT K → α → OSet Int × EvalMaxSAT K}
    (step : ∀ r x, Retains r.2 (f r x).2) (xs : List α) (assum : OSet Int) (s : EvalMaxSAT K) :
    Retains s (xs.foldl f (assum, s)).2 := by
  induction xs generalizing assum s with
  | nil => exact retains_refl s
  | cons x xs ih => exact retains_trans (step (assum, s) x) (ih _ _)

theorem retains_splitCore (minWeightToConsider : Nat) (assum : OSet Int) (conflict : Clause)
    (s : EvalMaxSAT K) : Retains s (splitCore minWeightToConsider assum conflict s).2 :=
  retains_foldl (fun r lit => retains_lightenLit (minWeightFrom (2 ^ 63 - 1) s conflict) lit r.2)
    conflict assum s

theorem retains_relaxPending (minWeightToConsider : Nat) (assum : OSet Int) (s : EvalMaxSAT K) :
    Retains s (relaxPending minWeightToConsider assum s).2 :=
  retains_foldl (fun r lit => retains_relax lit r.2) s.litToRelax assum s

theorem retains_addCard (clause : Clause) (w : Nat) (s : EvalMaxSAT K) :
    Retains s (s.addCard clause w).2 := by
  have made := atMost_relates retains_sink (CardIncremental_Lazy.mk' clause 1) 1 s
  unfold EvalMaxSAT.addCard
  dsimp only
  split <;> exact made

theorem retains_addPendingCards (minWeightToConsider : Nat) (assum : OSet Int) (s : EvalMaxSAT K) :
    Retains s (addPendingCards minWeightToConsider assum s).2 :=
  retains_foldl (fun r c => retains_addCard c.1 c.2 r.2) s.cardToAdd assum s

theorem retains_addFrontCard (minWeightToConsider : Nat) (assum : OSet Int) (s : EvalMaxSAT K) :
    Retains s (addFrontCard minWeightToConsider assum s).2 := by
  unfold addFrontCard
  split
  · exact retains_refl s
  · exact retains_addCard _ _ s

end Cores

end EvalMaxSat
