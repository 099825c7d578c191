import EvalMaxSat.LocalOptimization
import EvalMaxSat.Strata

/-!
The loops of `solve`: what a round keeps, why the rounds end, and what is known when
`solve` returns.
-/
namespace EvalMaxSat
open Literals OrderedContainers LawfulSink EvalMaxSAT StepProgram

variable {K : Type} {env : Env K} {lo : LocalOptimizer2} {opt : Option LocalOptimizer2}
  {s t u : EvalMaxSAT K} {minWeight : Nat} {assum : OSet Int}

section Queues

theorem sim_zero_trans (first : Sim (fun _ => 0) s t) (second : Sim (fun _ => 0) t u) :
    Sim (fun _ => 0) s u :=
  simOn_congr (sim_trans first second fun _ _ _ => rfl) fun _ => rfl

structure Emptied (s : EvalMaxSAT K) (assum r : OSet Int) (minWeight : Nat) (t : EvalMaxSAT K) :
    Prop where
  sane : Sane t
  rewrites : Rewrites 0 s t
  settles : Settles s t
  assums : 1 ≤ minWeight → AssumOk minWeight s assum → AssumOk minWeight t r

def KeepsWeights (s t : EvalMaxSAT K) : Prop := ∀ l, s.weight l ≠ 0 → t.weight l = s.weight l

theorem keepsWeights_trans (first : KeepsWeights s t) (second : KeepsWeights t u) :
    KeepsWeights s u := by
  intro l weighted
  have mid := first l weighted
  rw [second l (by rw [mid]; exact weighted), mid]

theorem keepsWeights_gives {ws : List Int} {new : Option Int} (wf : Wf ws s) (gives : Gives new s t) :
    KeepsWeights s t := fun _ weighted => gives_kept wf gives weighted

theorem relaxAll_spec {a : OSet Int} {w : Nat} {ws : List Int} (wf : Wf ws s) :
    let out := ws.foldl (fun (r : OSet Int × EvalMaxSAT K) lit =>
      let (newLit, s) := r.2.relax lit
      (insertIfHeavy w newLit r.1 s, s)) (a, s)
    Wf [] out.2 ∧ Sim (fun _ => 0) s out.2 ∧ out.2.outside = s.outside ∧ KeepsWeights s out.2 ∧
      Climbs 0 s out.2 ∧
      (1 ≤ w → AssumOk w s a → AssumOk w out.2 out.1) := by
  induction ws generalizing s a with
  | nil => exact ⟨wf, sim_refl s, rfl, fun _ _ => rfl, climbs_refl wf, fun _ ok => ok⟩
  | cons lit ws ih =>
    obtain ⟨wf', sim, gives, outside, climbs⟩ := relax_spec wf
    obtain ⟨wf'', sim', outside', keeps, climbs', assums⟩ :=
      ih (a := insertIfHeavy w (s.relax lit).1 a (s.relax lit).2) wf'
    exact ⟨wf'', sim_zero_trans sim sim', outside'.trans outside,
      keepsWeights_trans (keepsWeights_gives wf gives) keeps,
      climbs_trans wf wf' wf'' climbs climbs' (fun l _ weighted => keeps l weighted),
      fun least ok => assums least (assumOk_gives wf gives least ok)⟩

theorem relaxPending_spec {c : OSet Int} {b : Nat} (sane : Sane s) :
    Emptied s c (s.relaxPending b c).1 b (s.relaxPending b c).2 ∧
      (s.relaxPending b c).2.litToRelax = [] ∧
      (s.relaxPending b c).2.cardToAdd = s.cardToAdd := by
  obtain ⟨wf, sim, outside, _, climbs, assums⟩ :=
    relaxAll_spec (w := b) (a := c) sane.wf
  simp only [relaxPending]
  generalize s.litToRelax.foldl _ (c, s) = out at *
  obtain ⟨r, t⟩ := out
  have cost : t.cost = s.cost := congrArg Prod.fst outside
  refine ⟨⟨⟨wf_congr wf rfl rfl rfl rfl rfl rfl rfl, ?_⟩, ⟨⟨sim.vars, sim.clauses, sim.plain,
    sim.potential, sim.forward, sim.backward⟩, ?_, ?_⟩,
    ⟨0, climbs_congr climbs rfl rfl rfl rfl rfl rfl, ?_⟩, assums⟩, trivial, ?_⟩
  · change t.cost < 2 ^ 64
    rw [cost]; exact sane.word
  · change t.cost = u64 ((s.cost : Int) + 0)
    rw [cost, Int.add_zero, u64_of_nat sane.word]
  · exact congrArg (fun o => o.2.2.2) outside
  · exact Nat.le_of_eq (congrArg (fun o => o.2.2.1.length) outside)
  · exact congrArg (fun o => o.2.2.1) outside

theorem addCards_spec {b : OSet Int} {a : Nat} {ws : List Int} {p : List (Clause × Nat)} (wf : Wf ws (s.withPending p)) :
    let out := p.foldl (fun (r : OSet Int × EvalMaxSAT K) c =>
      let (newLit, s) := r.2.addCard c.1 c.2
      (insertIfHeavy a newLit r.1 s, s)) (b, s)
    Wf ws (out.2.withPending []) ∧ Sim (fun _ => 0) (s.withPending p) (out.2.withPending []) ∧
      out.2.outside = s.outside ∧ KeepsWeights s out.2 ∧ Climbs p.length s out.2 ∧
      (1 ≤ a → AssumOk a s b → AssumOk a out.2 out.1) := by
  induction p generalizing s b with
  | nil =>
    exact ⟨wf, sim_refl _, rfl, fun _ _ => rfl,
      climbs_congr (climbs_refl wf) rfl rfl rfl rfl rfl rfl, fun _ ok => ok⟩
  | cons c p ih =>
    obtain ⟨wf', sim, gives, outside, climbs⟩ := addCard_spec (a := c.1) (w := c.2) wf
    obtain ⟨wf'', sim', outside', keeps, climbs', assums⟩ :=
      ih (b := insertIfHeavy a (s.addCard c.1 c.2).1 b (s.addCard c.1 c.2).2) wf'
    have kept : KeepsWeights s (s.addCard c.1 c.2).2 :=
      keepsWeights_gives (s := s.withPending (c :: p)) wf gives
    refine ⟨wf'', sim_zero_trans sim sim', outside'.trans outside, keepsWeights_trans kept keeps, ?_,
      fun least ok => assums least (assumOk_gives (s := s.withPending (c :: p)) wf gives least ok)⟩
    rw [List.length_cons, Nat.add_comm]
    have joined := climbs_trans wf wf' wf'' (climbs_congr climbs rfl rfl rfl rfl rfl rfl)
      (climbs_congr climbs' rfl rfl rfl rfl rfl rfl) fun l _ weighted => keeps l weighted
    exact climbs_congr joined rfl rfl rfl rfl rfl rfl

theorem emptied_of_pending {a : OSet Int} {w : Nat} {cs : List (Clause × Nat)} {r : OSet Int} (sane : Sane s)
    (wf : Wf s.litToRelax (t.withPending cs)) (sim : Sim (fun _ => 0) s (t.withPending cs))
    (outside : t.outside = s.outside) (settles : Settles s (t.withPending cs))
    (assums : 1 ≤ w → AssumOk w s a → AssumOk w t r) :
    Emptied s a r w (t.withPending cs) ∧ t.litToRelax = s.litToRelax := by
  have cost : t.cost = s.cost := congrArg Prod.fst outside
  have waits : t.litToRelax = s.litToRelax := congrArg (fun o => o.2.1) outside
  refine ⟨⟨⟨?_, ?_⟩, ⟨sim, ?_, ?_⟩, settles, assums⟩, waits⟩
  · change Wf t.litToRelax (t.withPending cs)
    rw [waits]; exact wf
  · change t.cost < 2 ^ 64
    rw [cost]; exact sane.word
  · change t.cost = u64 ((s.cost : Int) + 0)
    rw [cost, Int.add_zero, u64_of_nat sane.word]
  · exact congrArg (fun o => o.2.2.2) outside

theorem addPendingCards_spec {c : OSet Int} {w : Nat} (sane : Sane s) :
    Emptied s c (s.addPendingCards w c).1 w
        (s.addPendingCards w c).2 ∧
      (s.addPendingCards w c).2.litToRelax = s.litToRelax ∧
      (s.addPendingCards w c).2.cardToAdd = [] := by
  obtain ⟨wf, sim, outside, _, climbs, assums⟩ := addCards_spec (a := w) (b := c)
    (p := s.cardToAdd) (s := s) sane.wf
  simp only [addPendingCards]
  generalize s.cardToAdd.foldl _ (c, s) = out at *
  have settles : Settles s (out.2.withPending []) :=
    ⟨_, climbs_congr climbs rfl rfl rfl rfl rfl rfl, by simp [EvalMaxSAT.withPending]⟩
  obtain ⟨emptied, waits⟩ := emptied_of_pending sane wf sim outside settles assums
  exact ⟨emptied, waits, trivial⟩

theorem addFrontCard_spec {b : OSet Int} {a : Nat} (sane : Sane s) (pending : s.cardToAdd ≠ []) :
    Emptied s b (s.addFrontCard a b).1 a
        (s.addFrontCard a b).2 ∧
      (s.addFrontCard a b).2.litToRelax = s.litToRelax ∧
      (s.addFrontCard a b).2.cardToAdd.length < s.cardToAdd.length := by
  obtain ⟨c, rest, eq⟩ := List.exists_cons_of_ne_nil pending
  have whole : s.withPending (c :: rest) = s := by rw [← eq]; rfl
  obtain ⟨wf, sim, gives, outside, climbs⟩ := addCard_spec (a := c.1) (w := c.2) (b := rest)
    (s := s) (by rw [whole]; exact sane.wf)
  rw [whole] at sim
  have settles : Settles s ((s.addCard c.1 c.2).2.withPending rest) :=
    ⟨1, climbs_congr climbs rfl rfl rfl rfl rfl rfl, by rw [eq]; exact Nat.le_refl _⟩
  simp only [addFrontCard, eq]
  obtain ⟨emptied, waits⟩ := emptied_of_pending (a := b) (w := a) sane wf
    sim outside settles (fun least ok => assumOk_gives sane.wf gives least ok)
  exact ⟨emptied, waits, Nat.lt_succ_self _⟩

end Queues

section Parts

def Modelled (s : EvalMaxSAT K) : Prop :=
  ∃ model, s.solver.last = .sat model ∧ Models (assignment model) s.solver.clauses

theorem modelled_solution (h : Modelled s) :
    Models (assignment s.solver.getSolution) s.solver.clauses := by
  obtain ⟨model, last, models⟩ := h
  rw [getSolution_assignment last]; exact models

/-- A stratum of a state: the assumptions are the literals heavy enough for it. -/
structure Working (st : Stratum) (s : EvalMaxSAT K) : Prop where
  sane : Sane s
  start : s.startSolve = true
  least : 1 ≤ st.minWeightToConsider
  assum : AssumOk st.minWeightToConsider s st.assum

theorem working_asked {st : Stratum} (h : Working st s) (asked : Asked s t) : Working st t :=
  ⟨asked_sane asked h.sane, (passed_start (passed_of_asked h.sane asked)).trans h.start, h.least,
    assumOk_weight h.assum (asked_weight asked)⟩

theorem wp_assertAssum {Q : Unit → EvalMaxSAT K → Prop} (sane : Sane s) (least : 1 ≤ minWeight)
    (ok : AssumOk minWeight s assum) (post : Q () s) :
    Wp (StepOk opt) (assertAssum minWeight assum) Q s := by
  refine wp_act ⟨sane, sane, rfl, least, ?_⟩ post
  have same : assum = s.initAssum minWeight :=
    OSet.ext fun l => (ok l).trans (initAssum_spec sane.wf least l).symm
  rw [same]

/-- What is known when `solve` returns `b`: the bounds have met, or no model is left. -/
def Verdict (b : Bool) (s : EvalMaxSAT K) : Prop :=
  (b = true ∧ s.solutionCost ≤ s.cost) ∨
    (b = decide (s.solutionCost ≠ maxWeight) ∧ Inconsistent s.solver.clauses [])

theorem wp_hardenAndAdapt {a : Stratum} (sound : env.Sound) (work : Working a s) :
    Wp (StepOk opt) (hardenAndAdapt env a.minWeightToConsider a.assum) (fun r t =>
      Passed s t ∧ Working { a with assum := r } t) s := by
  apply wp_bind
  apply wp_mono (wp_harden work.sane)
  rintro ⟨n, r⟩ t hardened
  have passed := hardened.passed
  have start := (passed_start passed).trans work.start
  have ok := hardened.assums _ work.least work.assum
  refine wp_ite (fun _ => wp_pure ⟨passed, passed.sane, start, work.least, ok⟩) (fun _ => ?_)
  apply wp_bind
  apply wp_mono (wp_adapt_am1_VeryFastHeuristic sound passed.sane start)
  rintro found u more
  have all := passed_trans passed more.passed
  have started := (passed_start all).trans work.start
  apply wp_bind_read
  refine wp_ite (fun none => ?_) (fun _ => ?_)
  · exact wp_pure ⟨all, all.sane, started, work.least,
      assumOk_weight ok (asked_weight (more.still none))⟩
  · exact wp_pure ⟨all, all.sane, started, work.least, initAssum_spec all.sane.wf work.least⟩

theorem wp_improveBound {st : Stratum} (sound : env.Sound) (work : Working st s)
    (modelled : Modelled s) :
    Wp (StepOk (some lo)) (improveBound env lo st.minWeightToConsider st.assum) (fun r t =>
      Working { st with assum := r } t ∧ t.potential ≤ s.potential ∧
        t.litToRelax = s.litToRelax) s := by
  apply wp_bind_read
  refine wp_ite (fun _ => ?_) (fun _ => wp_pure ⟨work, Nat.le_refl _, rfl⟩)
  apply wp_bind
  apply wp_mono (wp_optimize sound (free_stepOk work.sane) (modelled_solution modelled))
  rintro ⟨c, sol⟩ t ⟨asked, counted, models⟩
  have workT := working_asked work asked
  have potential := asked_potential asked
  have waits : t.litToRelax = s.litToRelax := congrArg (fun o => o.2.1) (asked_outside asked)
  apply wp_bind_read
  refine wp_ite (fun lower => ?_) (fun _ => wp_pure ⟨workT, by omega, waits⟩)
  have improves : Improves (some lo) t c sol :=
    ⟨lower, by rw [asked_clauses asked]; exact models, Or.inr ⟨lo, rfl, counted⟩⟩
  have sane' : Sane { t with solutionCost := c, solution := sol } :=
    ⟨wf_congr workT.sane.wf rfl rfl rfl rfl rfl rfl rfl, workT.sane.word⟩
  apply wp_bind
  refine wp_act ⟨workT.sane, workT.sane, rfl, sol, improves⟩ ?_
  apply wp_bind
  refine wp_act ⟨workT.sane, sane', c, sol, rfl, improves⟩ ?_
  apply wp_mono (wp_hardenAndAdapt (a := st) sound ⟨sane', workT.start, workT.least, workT.assum⟩)
  rintro r u ⟨passed, working⟩
  refine ⟨working, passed.potential.trans ?_, ?_⟩
  · exact Nat.le_of_eq potential
  · exact (congrArg Prod.fst passed.besides).trans waits

theorem wp_treatCore {st : Stratum} (sound : env.Sound) (work : Working st s)
    (refuted : Refuted s st.assum) :
    Wp (StepOk (some lo)) (treatCore env st) (fun x t => match x with
      | .inl b => Verdict b t
      | .inr st' => Working st' t ∧ t.potential < s.potential) s := by
  have nothing : ∀ t (c : Clause), Asked s t → IsCore s.solver.clauses st.assum c → c.length = 0 →
      Verdict (decide (t.solutionCost ≠ maxWeight)) t := by
    intro t c asked core empty
    rw [List.length_eq_zero_iff.mp empty] at core
    exact Or.inr ⟨rfl, by rw [asked_clauses asked]; exact core.refuted⟩
  apply wp_bind
  apply wp_mono (wp_getConflict refuted)
  rintro c _ ⟨rfl, core⟩
  apply wp_bind_read
  refine wp_ite (fun empty => wp_pure (nothing _ c (asked_refl _) core empty)) (fun _ => ?_)
  apply wp_bind
  apply wp_mono (wp_findCore sound work.sane refuted
    (assumOk_nonzero work.sane.wf work.least work.assum) core)
  rintro d t ⟨asked, coreD⟩
  have workT := working_asked work asked
  apply wp_bind_read
  refine wp_ite (fun empty => wp_pure (nothing t d asked coreD empty)) (fun nonempty => ?_)
  obtain ⟨spec, ok⟩ := splitCore_spec workT.sane.wf work.least workT.assum
    (fun empty => nonempty (by rw [empty]; rfl)) coreD.nodup coreD.sub
    (by rw [asked_clauses asked]; exact coreD.refuted)
  obtain ⟨p, pos, rewrites⟩ := spec.paid
  have sane' : Sane (t.splitCore st.minWeightToConsider st.assum d).2 :=
    ⟨spec.wf, word_rewrites rewrites⟩
  have less : (t.splitCore st.minWeightToConsider st.assum d).2.potential < t.potential := by
    have := rewrites.sim.potential
    omega
  rw [asked_potential asked] at less
  apply wp_bind
  refine wp_act ⟨workT.sane, sane', rfl, p, pos, rewrites, spec.climbs⟩ ?_
  have started : (t.splitCore st.minWeightToConsider st.assum d).2.startSolve = true :=
    (congrArg (fun a => a.1) rewrites.aside).trans workT.start
  have work' : Working { st with assum := (t.splitCore st.minWeightToConsider st.assum d).1 }
      (t.splitCore st.minWeightToConsider st.assum d).2 := ⟨sane', started, work.least, ok⟩
  apply wp_bind_read
  refine wp_ite (fun met => wp_pure (Or.inl ⟨rfl, Nat.le_of_eq met.symm⟩)) (fun _ => ?_)
  refine wp_ite (fun _ => ?_) (fun _ => wp_pure ⟨work', less⟩)
  apply wp_bind
  apply wp_mono (wp_hardenAndAdapt sound work')
  rintro r u ⟨passed, working⟩
  exact wp_pure ⟨working, passed.potential.trans_lt less⟩

theorem wp_treatModel {st : Stratum} (sound : env.Sound) (work : Working st s)
    (modelled : Modelled s) :
    Wp (StepOk (some lo)) (treatModel env lo st) (fun x t => match x with
      | .inl st' => Working st' t ∧ t.potential ≤ s.potential
      | .inr st' => Working st' t ∧ t.potential = s.potential ∧
          t.litToRelax.length < s.litToRelax.length) s := by
  apply wp_bind_read
  refine wp_ite (fun waits => ?_) (fun _ => ?_)
  · obtain ⟨emptied, none, _⟩ := relaxPending_spec (b := st.minWeightToConsider)
      (c := st.assum) work.sane
    apply wp_bind
    refine wp_act ⟨work.sane, emptied.sane, emptied.rewrites, emptied.settles⟩ ?_
    have started := (congrArg (fun a => a.1) emptied.rewrites.aside).trans work.start
    have assums := emptied.assums work.least work.assum
    apply wp_bind
    apply wp_assertAssum emptied.sane work.least assums
    refine wp_pure ⟨⟨emptied.sane, started, work.least, assums⟩, ?_, ?_⟩
    · exact emptied.rewrites.sim.potential
    · rw [none]
      exact List.length_pos_iff.mpr waits
  · apply wp_bind
    apply wp_mono (wp_improveBound sound work modelled)
    rintro r t ⟨workT, le, _⟩
    apply wp_bind
    refine wp_mono (wp_loop Nat.lt_wfRel.wf (fun _ u => u.cardToAdd.length)
      (fun r u => Working { st with assum := r } u ∧ u.potential ≤ s.potential) ?_ _ _ ⟨workT, le⟩)
      (Q := fun r u => Working { st with assum := r } u ∧ u.potential ≤ s.potential) ?_
    · rintro r u ⟨workU, le⟩
      apply wp_bind_read
      refine wp_ite (fun _ => wp_pure ⟨workU, le⟩) (fun pending => ?_)
      obtain ⟨emptied, _, shorter⟩ := addFrontCard_spec (a := st.minWeightToConsider)
        (b := r) workU.sane pending
      have started := (congrArg (fun a => a.1) emptied.rewrites.aside).trans workU.start
      have same := emptied.rewrites.sim.potential
      apply wp_bind
      refine wp_act ⟨workU.sane, emptied.sane, emptied.rewrites, emptied.settles⟩ ?_
      refine wp_pure ⟨⟨⟨emptied.sane, started, work.least,
        emptied.assums work.least workU.assum⟩, ?_⟩, shorter⟩
      exact (Nat.le_of_eq same).trans le
    · rintro r u ⟨workU, le⟩
      exact wp_pure ⟨workU, le⟩

end Parts

section Loops

theorem wp_limitedSat {st : Stratum} (sound : env.Sound) (work : Working st s) :
    Wp (StepOk opt) (limitedSat env st.assum) (fun r t => Asked s t ∧
      (r = some false → Refuted t st.assum) ∧ (r = some true → Modelled t)) s := by
  apply wp_bind_read
  refine wp_ite (fun _ => ?_) (fun _ => ?_)
  · apply wp_solverSolveLimited sound (free_stepOk work.sane)
    · intro k model models _
      exact ⟨asked_answered _ _ _, by simp, fun _ => ⟨model, rfl, models⟩⟩
    · intro k failed refuted
      refine ⟨asked_answered _ _ _, fun _ => ⟨failed, rfl, inconsistent_sub ?_ refuted⟩, by simp⟩
      intro l mem
      obtain ⟨inLits, inFailed⟩ := List.mem_filter.mp mem
      exact List.mem_filter.mpr ⟨List.mem_of_mem_filter inLits, inFailed⟩
    · intro k
      exact ⟨asked_answered _ _ _, by simp, by simp⟩
  · apply wp_bind
    apply wp_solverSolve sound (free_stepOk work.sane)
    · intro k model models _
      exact wp_pure ⟨asked_answered _ _ _, by simp, fun _ => ⟨model, rfl, models⟩⟩
    · intro k failed refuted
      exact wp_pure ⟨asked_answered _ _ _, fun _ => ⟨failed, rfl, refuted⟩, by simp⟩

/-- The inner loop between two limited calls, entered in state `s` on a refutation. -/
structure Inner (s : EvalMaxSAT K) (result : Option Bool) (st : Stratum) (t : EvalMaxSAT K) :
    Prop where
  work : Working st t
  potential : t.potential ≤ s.potential
  less : result ≠ some false → t.potential < s.potential
  refuted : result = some false → Refuted t st.assum
  modelled : result = some true → Modelled t

/-- How the treatment of an answer may leave the inner loop, or what it leaves for the next
call of the back end. -/
def Treated (s t : EvalMaxSAT K) (x : Leave ⊕ Stratum) (u : EvalMaxSAT K) : Prop :=
  match x with
  | .inl (.ret b) => Verdict b u
  | .inl (.brk st) => Working st u ∧ u.potential < s.potential
  | .inr st => Working st u ∧ u.potential < s.potential ∧
      Prod.Lex (· < ·) (· < ·) (u.potential, u.litToRelax.length)
        (t.potential, t.litToRelax.length)

theorem wp_nextAnswer {x : Leave ⊕ Stratum} (sound : env.Sound)
    (treated : Treated s t x u) :
    Wp (StepOk opt) (nextAnswer env x) (fun y v => match y with
        | .inl r => Inner s r.1 r.2 v ∧ Prod.Lex (· < ·) (· < ·)
            (v.potential, v.litToRelax.length) (t.potential, t.litToRelax.length)
        | .inr leave => Treated s s (.inl leave) v) u := by
  cases x with
  | inl leave => cases leave <;> exact wp_pure treated
  | inr st =>
    obtain ⟨work, less, lex⟩ := treated
    apply wp_bind_read
    refine wp_ite (fun _ => wp_pure ⟨work, less⟩) (fun _ => ?_)
    apply wp_bind
    apply wp_mono (wp_limitedSat sound work)
    rintro result v ⟨asked, refuted, modelled⟩
    have potential := asked_potential asked
    have waits : v.litToRelax = u.litToRelax := congrArg (fun o => o.2.1) (asked_outside asked)
    refine wp_pure ⟨⟨working_asked work asked, ?_, fun _ => ?_, refuted, modelled⟩, ?_⟩
    · omega
    · omega
    · rw [potential, waits]; exact lex

theorem wp_innerLoop {st : Stratum} (sound : env.Sound) (work : Working st s)
    (refuted : Refuted s st.assum) :
    Wp (StepOk (some lo)) (innerLoop env lo st) (fun x t => match x with
      | .ret b => Verdict b t
      | .brk st' => Working st' t ∧ t.potential < s.potential) s := by
  refine wp_mono (wp_loop lex_wf (fun _ t => (t.potential, t.litToRelax.length))
    (fun b t => Inner s b.1 b.2 t) (Q := fun leave t => Treated s s (.inl leave) t) ?_ _ _
    ⟨work, Nat.le_refl _, fun ne => absurd rfl ne, fun _ => refuted, by simp⟩) ?_
  · rintro ⟨result, st⟩ t inv
    replace inv : Inner s result st t := inv
    apply wp_bind
    refine wp_mono (Q := Treated s t) ?_ (fun x u treated =>
      wp_mono (wp_nextAnswer sound treated) (by rintro (y | y) v post <;> exact post))
    match result, inv with
    | some false, inv =>
      apply wp_bind
      apply wp_mono (wp_treatCore sound inv.work (inv.refuted rfl))
      rintro (b | st') u post
      · exact wp_pure post
      · exact wp_pure ⟨post.1, post.2.trans_le inv.potential, Prod.Lex.left _ _ post.2⟩
    | some true, inv =>
      have less := inv.less (by simp)
      apply wp_bind
      apply wp_mono (wp_treatModel sound inv.work (inv.modelled rfl))
      rintro (st' | st') u post
      · exact wp_pure ⟨post.1, post.2.trans_lt less⟩
      · obtain ⟨work', same, shorter⟩ := post
        exact wp_pure ⟨work', by omega, lex_of_le (Nat.le_of_eq same) shorter⟩
    | none, inv =>
      apply wp_bind_read
      exact wp_pure ⟨⟨inv.work.sane, inv.work.start, Nat.le_refl _,
        initAssum_spec inv.work.sane.wf (Nat.le_refl _)⟩, inv.less (by simp)⟩
  · rintro (b | st') t treated
    · exact treated
    · exact treated

structure Outer (st : Stratum) (s : EvalMaxSAT K) : Prop where
  work : Working st s
  relaxed : s.litToRelax = []
  added : s.cardToAdd = []

theorem owed_zero {m : Assignment} (wf : Wf [] s) (added : s.cardToAdd = [])
    (models : Models m s.solver.clauses) (all : ∀ l, 0 < s.weight l → litTrue m l = true) :
    s.owed (falsified m) = 0 := by
  have never : ∀ l, 0 < s.weight l → falsified m l = false := by
    intro l soft
    simp [falsified, all l soft]
  have soft : softSum (falsified m) s.poids = 0 := by
    apply Finset.sum_eq_zero
    intro i _
    have entry : s.poids.weight.getD i 0 = s.weight (i : Int) := by
      rw [EvalMaxSAT.weight, WeightVector.get_eq wf.poids_bounded, WeightVector.signed,
        if_neg (by omega), Int.natAbs_natCast]
    have opposite := wf.weight_neg (i : Int)
    rw [entry, charge]
    split
    · rw [never _ (by assumption)]; rfl
    · by_cases zero : s.weight (i : Int) = 0
      · rw [zero]; simp
      · rw [never (-(i : Int)) (by omega)]; rfl
  have cards : cardSum (falsified m) s.cards = 0 := by
    apply List.sum_eq_zero
    intro n mem
    obtain ⟨o, inCards, rfl⟩ := List.mem_map.mp mem
    obtain ⟨c, cell⟩ := List.getElem?_of_mem inCards
    have ok := wf.cards c o cell
    rw [CardObject.charge, falseCount_model (inputs_nonzero ok.ready)]
    obtain ⟨x, made, state⟩ := ok.last
    have few : o.card.inputs.length ≤ o.level + 1 ∨ litTrue m x = false := by
      have nonzero := (wf.output_pos cell made).1
      rcases state with active | waits | fixed | final
      · right
        have opposite := wf.weight_neg x
        have := all (-x) (by omega)
        rw [litTrue_neg (by omega)] at this
        simpa using this
      · simp at waits
      · right
        have := holds_unit.mp (models _ fixed)
        rw [litTrue_neg (by omega)] at this
        simpa using this
      · left; omega
    have count : trueCount m o.card.inputs ≤ o.level + 1 := by
      rcases few with short | off
      · have : trueCount m o.card.inputs ≤ o.card.inputs.length := List.countP_le_length
        omega
      · by_contra many
        have := TotTree.output_upward ok.ready.tree ok.ready.several made models
          (by simp only [CardIncremental_Lazy.inputs] at many; omega)
        rw [off] at this
        simp at this
    rw [Nat.sub_eq_zero_of_le count, Nat.mul_zero]
  simp [EvalMaxSAT.owed, soft, cards, added, pendingSum]

theorem wp_storeModel {Q : Unit → EvalMaxSAT K → Prop} (sane : Sane s) (relaxed : s.litToRelax = [])
    (added : s.cardToAdd = []) (lower : s.cost < s.solutionCost) (modelled : Modelled s)
    (all : ∀ l, 0 < s.weight l → litTrue (assignment s.solver.getSolution) l = true)
    (post : ∀ t, Sane t → t.startSolve = s.startSolve → t.solutionCost = t.cost → Q () t) :
    Wp (StepOk opt) (Prog.act .bound fun s : EvalMaxSAT K =>
      ((), { s with solutionCost := s.cost, solution := s.solver.getSolution })) Q s := by
  have models := modelled_solution modelled
  have wf := sane.wf
  rw [relaxed] at wf
  have sane' : Sane { s with solutionCost := s.cost, solution := s.solver.getSolution } :=
    ⟨wf_congr sane.wf rfl rfl rfl rfl rfl rfl rfl, sane.word⟩
  exact wp_act ⟨sane, sane', _, _, rfl, lower, models, Or.inl ⟨rfl, owed_zero wf added models all⟩⟩
    (post _ sane' rfl rfl)

theorem wp_mainRound {st : Stratum} (sound : env.Sound) (outer : Outer st s) :
    Wp (StepOk (some lo)) (mainRound env lo st) (fun x t => match x with
      | .inl st' => Outer st' t ∧ Prod.Lex (· < ·) (· < ·) (t.potential, st'.minWeightToConsider)
          (s.potential, st.minWeightToConsider)
      | .inr b => Verdict b t) s := by
  have work := outer.work
  apply wp_bind_read
  refine wp_ite (fun met => wp_pure (Or.inl ⟨rfl, met⟩)) (fun unmet => ?_)
  apply wp_bind
  apply wp_assertAssum work.sane work.least work.assum
  apply wp_bind
  apply wp_solverSolve sound (free_stepOk work.sane)
  · intro k model models all
    have asked := asked_answered s k (.sat model)
    have sane := asked_sane asked work.sane
    refine wp_ite (fun _ => ?_) (fun no => absurd rfl no)
    refine wp_ite (fun last => ?_) (fun notLast => ?_)
    · apply wp_bind
      refine wp_storeModel sane outer.relaxed outer.added (by exact Nat.lt_of_not_le unmet)
        ⟨model, rfl, models⟩ ?_ ?_
      · intro l soft
        rw [getSolution_assignment rfl]
        apply all l
        have := work.assum l
        rw [last] at this
        exact this.mpr (by exact soft)
      · intro t _ _ same
        exact wp_pure (Or.inl ⟨rfl, Nat.le_of_eq same⟩)
    · apply wp_bind
      apply wp_mono (wp_nextBound sane)
      rintro w t ⟨thins, next⟩
      apply wp_bind_read
      have smaller := next.less (by have := work.least; omega)
      have saneT := thins_sane sane thins
      have same := thins.eq
      generalize t.mapWeight2Assum = m at same
      subst same
      exact wp_pure ⟨⟨⟨saneT, work.start, next.least, initAssum_spec saneT.wf next.least⟩,
        outer.relaxed, outer.added⟩, lex_of_le (Nat.le_refl _) smaller⟩
  · intro k failed refuted
    have asked := asked_answered s k (.unsat failed)
    refine wp_ite (fun yes => absurd yes (by decide)) (fun _ => ?_)
    apply wp_bind
    apply wp_mono (wp_innerLoop sound (working_asked work asked) ⟨failed, rfl, refuted⟩)
    rintro (b | st') t post
    · exact wp_pure post
    · obtain ⟨work', less⟩ := post
      obtain ⟨emptied, none, _⟩ := relaxPending_spec (b := st'.minWeightToConsider)
        (c := st'.assum) work'.sane
      apply wp_bind
      refine wp_act ⟨work'.sane, emptied.sane, emptied.rewrites, emptied.settles⟩ ?_
      obtain ⟨emptied', waits, none'⟩ := addPendingCards_spec (w := st'.minWeightToConsider)
        (c := (t.relaxPending st'.minWeightToConsider st'.assum).1) emptied.sane
      apply wp_bind
      refine wp_act ⟨emptied.sane, emptied'.sane, emptied'.rewrites, emptied'.settles⟩ ?_
      have started := (congrArg (fun a => a.1) emptied'.rewrites.aside).trans
        ((congrArg (fun a => a.1) emptied.rewrites.aside).trans work'.start)
      refine wp_pure ⟨⟨⟨emptied'.sane, started, work'.least, emptied'.assums work'.least
        (emptied.assums work'.least work'.assum)⟩, waits.trans none, none'⟩, Prod.Lex.left _ _ ?_⟩
      have one := emptied.rewrites.sim.potential
      have two := emptied'.rewrites.sim.potential
      change t.potential < s.potential at less
      omega

theorem wp_mainLoop (sound : env.Sound) (sane : Sane s) (start : s.startSolve = true)
    (relaxed : s.litToRelax = []) (added : s.cardToAdd = []) :
    Wp (StepOk (some ⟨s.poids, s.cost⟩)) (mainLoop env) Verdict s := by
  apply wp_bind_read
  apply wp_bind
  apply wp_mono (wp_nextBound sane)
  rintro w t ⟨thins, next⟩
  have saneT := thins_sane sane thins
  apply wp_bind_read
  refine wp_loop lex_wf (fun st u => (u.potential, st.minWeightToConsider)) Outer
    (fun st u outer => wp_mono (wp_mainRound sound outer) (by rintro (y | y) v post <;> exact post))
    _ _ ?_
  have same := thins.eq
  generalize t.mapWeight2Assum = m at same
  subst same
  exact ⟨⟨saneT, start, next.least, initAssum_spec saneT.wf next.least⟩, relaxed, added⟩

/-- What the part of `solve` before the main loop leaves. -/
def Opened (early : Option Bool) (s : EvalMaxSAT K) : Prop :=
  match early with
  | some b => Verdict b s
  | none => Sane s ∧ s.startSolve = true ∧ s.litToRelax = [] ∧ s.cardToAdd = []

theorem opened_passed (passed : Passed s t) (start : s.startSolve = true)
    (relaxed : s.litToRelax = []) (added : s.cardToAdd = []) : Opened none t :=
  ⟨passed.sane, (passed_start passed).trans start, (congrArg Prod.fst passed.besides).trans relaxed,
    (congrArg (fun o => o.2.1) passed.besides).trans added⟩

theorem wp_prologue (sound : env.Sound) (sane : Sane s) (start : s.startSolve = true)
    (top : s.solutionCost = maxWeight) : Wp (StepOk none) (prologue env) Opened s := by
  obtain ⟨emptied, none₁, _⟩ := relaxPending_spec (b := 0) (c := OSet.empty) sane
  apply wp_bind
  refine wp_act ⟨sane, emptied.sane, emptied.rewrites, emptied.settles⟩ ?_
  obtain ⟨emptied', waits, none₂⟩ := addPendingCards_spec (w := 0) (c := OSet.empty)
    emptied.sane
  apply wp_bind
  refine wp_act ⟨emptied.sane, emptied'.sane, emptied'.rewrites, emptied'.settles⟩ ?_
  have aside := emptied'.rewrites.aside.trans emptied.rewrites.aside
  have relaxed := waits.trans none₁
  generalize addPendingCards 0 OSet.empty (s.relaxPending 0 OSet.empty).2 = out at *
  obtain ⟨_, s₂⟩ := out
  replace aside : s₂.aside = s.aside := aside
  replace start : s₂.startSolve = true := (congrArg (fun a => a.1) aside).trans start
  have sane₂ : Sane s₂ := emptied'.sane
  apply wp_bind
  apply wp_mono (wp_adapt_am1_exact sound sane₂ start)
  rintro _ s₃ passed₃
  apply wp_bind
  apply wp_mono (wp_adapt_am1_FastHeuristicV7 sound passed₃.sane ((passed_start passed₃).trans start))
  rintro _ s₄ found₄
  have passed₄ := passed_trans passed₃ found₄.passed
  have open₄ := opened_passed passed₄ start relaxed none₂
  have cost₄ : s₄.solutionCost = maxWeight :=
    (solutionCost_passed passed₄).trans ((congrArg (fun a => a.2.2.1) aside).trans top)
  apply wp_bind_read
  refine wp_ite (fun met => wp_pure (Or.inl ⟨rfl, met⟩)) (fun unmet => ?_)
  refine wp_ite (fun empty => ?_) (fun _ => ?_)
  · apply wp_bind
    apply wp_solverSolve sound (free_stepOk passed₄.sane)
    · intro k model models _
      refine wp_ite (fun _ => ?_) (fun no => absurd rfl no)
      apply wp_bind
      refine wp_storeModel (asked_sane (asked_answered s₄ k (.sat model)) passed₄.sane) open₄.2.2.1
        open₄.2.2.2 (by exact Nat.lt_of_not_le unmet) ⟨model, rfl, models⟩ ?_ ?_
      · intro l soft
        have range := passed₄.sane.wf.weight_range l
        replace soft : 0 < s₄.weight l := soft
        obtain ⟨b, found, _⟩ := (passed₄.sane.wf.indexed l (s₄.weight l).toNat).mpr (by omega)
        rw [OMap.size_eq_zero empty] at found
        simp at found
      · intro t _ _ same
        exact wp_pure (Or.inl ⟨rfl, Nat.le_of_eq same⟩)
    · intro k failed refuted
      refine wp_ite (fun yes => absurd yes (by decide)) (fun _ => ?_)
      refine wp_pure (Or.inr ⟨?_, refuted⟩)
      change false = decide (s₄.solutionCost ≠ maxWeight)
      simp [cost₄]
  apply wp_bind
  apply wp_mono (wp_harden passed₄.sane)
  rintro ⟨n, _⟩ s₅ hardened
  have passed₅ := passed_trans passed₄ hardened.passed
  refine wp_ite (fun _ => wp_pure (opened_passed passed₅ start relaxed none₂)) (fun _ => ?_)
  apply wp_bind
  apply wp_mono (wp_adapt_am1_VeryFastHeuristic sound passed₅.sane
    ((passed_start passed₅).trans start))
  rintro found s₆ found₆
  have passed₆ := passed_trans passed₅ found₆.passed
  apply wp_bind_read
  refine wp_ite (fun met => wp_pure (Or.inl ⟨rfl, met.2⟩)) (fun _ => ?_)
  exact wp_pure (opened_passed passed₆ start relaxed none₂)

end Loops
end EvalMaxSat
