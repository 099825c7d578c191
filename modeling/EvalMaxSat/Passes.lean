import EvalMaxSat.Steps

/-!
The at-most-one passes: `processAtMostOne`, the exact pass over the graph of incompatible
soft literals, and the two fast ones.
-/
namespace EvalMaxSat
open Literals OrderedContainers LawfulSink EvalMaxSAT StepProgram

variable {K : Type} {env : Env K} {lo : Option LocalOptimizer2} {s t u : EvalMaxSAT K}

section Process

/-- What `processAtMostOne` does to an exclusive clause of soft literals. -/
structure Processed (c : Clause) (s : EvalMaxSAT K) (newAssum : List Int) (t : EvalMaxSAT K) :
    Prop where
  passed : Passed s t
  steady : Steady s t
  plain : ∀ v ≤ s.solver.nVar, t.Plain v ↔ s.Plain v
  kept : ∀ l : Int, l ∉ c → -l ∉ c → s.weight l ≠ 0 → t.weight l = s.weight l
  nodup : newAssum.Nodup
  soft : ∀ l ∈ newAssum, 0 < t.weight l
  origin : ∀ l ∈ newAssum, l ∈ c ∨ s.solver.nVar < l.natAbs
  rewrites : ∃ d, Rewrites d s t
  climbs : Climbs 0 s t
  fewer : newAssum.length ≤ c.length

/-- Between two rounds: what is left of the clause, and the new soft variables. -/
structure Processing (c : Clause) (s : EvalMaxSAT K) (rest newAssum : List Int)
    (t : EvalMaxSAT K) : Prop where
  base : Processed c s newAssum t
  fresh : ∀ l ∈ newAssum, s.solver.nVar < l.natAbs
  sub : rest ⊆ c
  restNodup : rest.Nodup
  restSoft : ∀ l ∈ rest, 0 < t.weight l
  shorter : newAssum.length + rest.length ≤ c.length
  paid : rest = c ∨ t.potential < s.potential

section Rounds
variable {c rest rest' newAssum : Clause} {var : Int}

theorem softs_inside (wf : Wf s.litToRelax s) (soft : ∀ l ∈ c, 0 < s.weight l) :
    ∀ l ∈ c, l.natAbs ≤ s.solver.nVar := fun l mem =>
  (wf.weighted_inside (by have := soft l mem; omega : s.weight l ≠ 0)).2

theorem processing_start (sane : Sane s) (nodup : c.Nodup) (soft : ∀ l ∈ c, 0 < s.weight l) :
    Processing c s c [] s where
  base :=
    { passed := passed_of_asked sane (asked_refl s)
      steady := fun _ _ _ nonneg => nonneg
      plain := fun _ _ => Iff.rfl
      kept := fun _ _ _ _ => rfl
      nodup := List.nodup_nil
      soft := by simp
      origin := by simp
      rewrites := ⟨0, rewrites_refl sane.word⟩
      climbs := climbs_refl sane.wf
      fewer := Nat.zero_le _ }
  fresh := by simp
  sub := List.Subset.refl _
  restNodup := nodup
  restSoft := soft
  shorter := by simp
  paid := Or.inl rfl

theorem round_keeps (inside : ∀ l ∈ c, l.natAbs ≤ s.solver.nVar)
    (inv : Processing c s rest newAssum t) (amo : AmoSpec t.litToRelax rest t u rest' var) :
    ∀ l ∈ newAssum, u.weight l = t.weight l := by
  intro l mem
  have far := inv.fresh l mem
  apply amo.kept
  · intro in_c; have := inside l (inv.sub in_c); omega
  · intro in_c; have := inside (-l) (inv.sub in_c); omega
  · have := inv.base.soft l mem; omega

theorem round_still (wf : Wf s.litToRelax s) (soft : ∀ l ∈ c, 0 < s.weight l)
    (inv : Processing c s rest newAssum t) (amo : AmoSpec t.litToRelax rest t u rest' var) :
    ∀ l, s.weight l = 0 → t.weight l ≠ 0 → u.weight l = t.weight l := by
  intro l unweighted weighted
  refine amo.kept l (fun mem => ?_) (fun mem => ?_) weighted
  · have := soft l (inv.sub mem); omega
  · have := soft (-l) (inv.sub mem)
    have := wf.weight_neg l
    omega

theorem round_nodup (wf : Wf t.litToRelax t) (inv : Processing c s rest newAssum t)
    (amo : AmoSpec t.litToRelax rest t u rest' var) : (newAssum ++ [var]).Nodup := by
  refine List.nodup_append.mpr ⟨inv.base.nodup, List.nodup_singleton _, ?_⟩
  intro l mem k single
  have bound := softs_inside wf inv.base.soft l mem
  have var_eq := amo.fresh
  rw [List.mem_singleton] at single
  rintro rfl
  omega

theorem processed_round (sane : Sane s) (soft : ∀ l ∈ c, 0 < s.weight l)
    (inv : Processing c s rest newAssum t) (amo : AmoSpec t.litToRelax rest t u rest' var) :
    Processed c s (newAssum ++ [var]) u := by
  have base := inv.base
  have wfT := base.passed.sane.wf
  have vars := base.passed.vars
  have var_eq := amo.fresh
  obtain ⟨p, before⟩ := base.rewrites
  obtain ⟨d, pos, rewrites⟩ := amo.paid
  have step := passed_of_rewrites amo.wf rewrites amo.besides
  refine ⟨passed_trans base.passed step, steady_trans base.steady amo.steady vars rewrites.sim.plain,
    fun v bound => (rewrites.sim.plain v (bound.trans vars)).trans (base.plain v bound),
    ?_, round_nodup wfT inv amo, ?_, ?_, ⟨p + d, rewrites_trans before rewrites⟩,
    climbs_trans sane.wf wfT step.sane.wf base.climbs amo.climbs (round_still sane.wf soft inv amo),
    ?_⟩
  · intro l notIn notNeg weighted
    have mid := base.kept l notIn notNeg weighted
    rw [amo.kept l (fun mem => notIn (inv.sub mem)) (fun mem => notNeg (inv.sub mem))
      (by rw [mid]; exact weighted), mid]
  · intro l mem
    rcases List.mem_append.mp mem with mem | mem
    · rw [round_keeps (softs_inside sane.wf soft) inv amo l mem]
      exact base.soft l mem
    · rw [List.mem_singleton] at mem
      rw [mem]; exact amo.softVar
  · intro l mem
    rcases List.mem_append.mp mem with mem | mem
    · exact base.origin l mem
    · rw [List.mem_singleton] at mem
      right; omega
  · have := amo.fewer
    have := inv.shorter
    simp only [List.length_append, List.length_singleton]
    omega

theorem processing_round (sane : Sane s) (soft : ∀ l ∈ c, 0 < s.weight l)
    (inv : Processing c s rest newAssum t) (amo : AmoSpec t.litToRelax rest t u rest' var) :
    Processing c s rest' (newAssum ++ [var]) u := by
  have vars := inv.base.passed.vars
  have var_eq := amo.fresh
  refine ⟨processed_round sane soft inv amo, ?_, fun l mem => inv.sub (amo.sub mem), amo.nodup,
    amo.soft, ?_, ?_⟩
  · intro l mem
    rcases List.mem_append.mp mem with mem | mem
    · exact inv.fresh l mem
    · rw [List.mem_singleton] at mem
      omega
  · have := amo.fewer
    have := inv.shorter
    simp only [List.length_append, List.length_singleton]
    omega
  · obtain ⟨d, pos, rewrites⟩ := amo.paid
    have := rewrites.sim.potential
    have := inv.base.passed.potential
    exact Or.inr (by omega)

theorem processed_rest (wf : Wf s.litToRelax s) (soft : ∀ l ∈ c, 0 < s.weight l)
    (inv : Processing c s rest newAssum t) : Processed c s (newAssum ++ rest) t := by
  have base := inv.base
  refine ⟨base.passed, base.steady, base.plain, base.kept, ?_, ?_, ?_, base.rewrites, base.climbs,
    by rw [List.length_append]; exact inv.shorter⟩
  · refine List.nodup_append.mpr ⟨base.nodup, inv.restNodup, ?_⟩
    rintro l mem k memRest rfl
    have := inv.fresh l mem
    have := softs_inside wf soft l (inv.sub memRest)
    omega
  · intro l mem
    rcases List.mem_append.mp mem with mem | mem
    · exact base.soft l mem
    · exact inv.restSoft l mem
  · intro l mem
    rcases List.mem_append.mp mem with mem | mem
    · exact base.origin l mem
    · exact Or.inl (inv.sub mem)

end Rounds

theorem wp_processAtMostOne {c : Clause} (sane : Sane s) (start : s.startSolve = true)
    (nodup : c.Nodup) (soft : ∀ l ∈ c, 0 < s.weight l) (exclusive : Exclusive s.solver.clauses c) :
    Wp (StepOk lo) (processAtMostOne c) (fun newAssum t => Processed c s newAssum t ∧
      (2 ≤ c.length → t.potential < s.potential)) s := by
  apply wp_bind
  refine wp_act ⟨sane, sane, rfl, nodup, soft, exclusive⟩ ?_
  refine wp_loop Nat.lt_wfRel.wf (fun b _ => b.1.length) (fun b t => Processing c s b.1 b.2 t)
    ?_ _ _ (processing_start sane nodup soft)
  rintro ⟨rest, newAssum⟩ t inv
  replace inv : Processing c s rest newAssum t := inv
  have saneT := inv.base.passed.sane
  simp only
  split
  · rename_i several
    obtain ⟨rest', var, eq, amo⟩ := amoRound_spec saneT.wf
      ((passed_start inv.base.passed).trans start) several inv.restNodup inv.restSoft
      (exclusive_sub inv.base.passed.clauses inv.sub exclusive)
    obtain ⟨d, pos, rewrites⟩ := amo.paid
    have step := passed_of_rewrites amo.wf rewrites amo.besides
    apply wp_bind
    refine wp_act ⟨saneT, step.sane, d, pos, rewrites, settles_of_besides amo.climbs amo.besides⟩ ?_
    rw [eq]
    apply wp_pure
    exact ⟨processing_round sane soft inv amo, amo.fewer⟩
  · rename_i single
    apply wp_pure
    have whole : rest.take 1 = rest := List.take_of_length_le (by omega)
    rw [whole]
    refine ⟨processed_rest sane.wf soft inv, fun several => ?_⟩
    rcases inv.paid with same | paid
    · subst same; omega
    · exact paid

end Process

section Sweep

/-- What a pass that reports `n` findings does. -/
structure Found (s : EvalMaxSAT K) (n : Nat) (t : EvalMaxSAT K) : Prop where
  passed : Passed s t
  still : n = 0 → Asked s t
  paid : n ≠ 0 → t.potential < s.potential

theorem found_asked (sane : Sane s) (h : Asked s t) : Found s 0 t :=
  ⟨passed_of_asked sane h, fun _ => h, fun ne => absurd rfl ne⟩

theorem found_trans {n k : Nat} (first : Found s n t) (second : Found t k u) :
    Found s (n + k) u where
  passed := passed_trans first.passed second.passed
  still := fun zero => asked_trans (first.still (by omega)) (second.still (by omega))
  paid := by
    intro some
    have := first.passed.potential
    have := second.passed.potential
    by_cases zero : n = 0
    · have := second.paid (by omega); omega
    · have := first.paid zero; omega

theorem softLit_pos (wf : Wf s.litToRelax s) {var : Nat} (weighted : s.weight var ≠ 0) :
    0 < s.weight (s.softLit var) := by
  unfold EvalMaxSAT.softLit
  split
  · assumption
  · have := wf.weight_neg var
    omega

theorem wp_sweepVariables {found : Int → List Int → Program K Nat} (sound : env.Sound)
    (treats : ∀ lit prop t, Sane t → t.startSolve = true → 0 < t.weight lit →
      Implied t.solver.clauses [lit] prop → Wp (StepOk lo) (found lit prop) (Found t) t)
    (sane : Sane s) (start : s.startSolve = true) :
    Wp (StepOk lo) (sweepVariables env found) (Found s) s := by
  refine wp_loop lex_wf (fun b t => (t.potential, t.poids.size - b.1)) (fun b t => Found s b.2 t)
    ?_ _ _ (found_asked sane (asked_refl s))
  rintro ⟨var, n⟩ t inv
  replace inv : Found s n t := inv
  have saneT := inv.passed.sane
  have next : ∀ k v, Found t k v → Found s (n + k) v ∧
      (t.poids.size ≤ var ∨ Prod.Lex (· < ·) (· < ·) (v.potential, v.poids.size - (var + 1))
        (t.potential, t.poids.size - var)) := by
    intro k v more
    refine ⟨found_trans inv more, ?_⟩
    by_cases inside : t.poids.size ≤ var
    · exact Or.inl inside
    · right
      by_cases zero : k = 0
      · obtain ⟨_, _, rfl⟩ := more.still zero
        apply lex_of_le (Nat.le_refl _)
        change t.poids.size - (var + 1) < _
        omega
      · exact Prod.Lex.left _ _ (more.paid zero)
  apply wp_bind_read
  refine wp_ite (fun _ => wp_pure inv) (fun inside => ?_)
  refine wp_ite (fun _ => ?_) (fun weighted => ?_)
  · obtain ⟨_, done⟩ := next 0 t (found_asked saneT (asked_refl t))
    exact wp_pure ⟨inv, done.resolve_left inside⟩
  have soft := softLit_pos saneT.wf weighted
  apply wp_bind
  apply wp_solverPropagate sound saneT
  · intro core prop implied
    have asked := asked_answered t core t.solver.last
    apply wp_bind
    apply wp_mono (treats (t.softLit var) prop (t.answered core t.solver.last)
      (asked_sane asked saneT) ((passed_start inv.passed).trans start) soft implied)
    intro k v more
    apply wp_pure
    have step := found_trans (found_asked saneT asked) more
    rw [Nat.zero_add] at step
    obtain ⟨all, done⟩ := next k v step
    exact ⟨all, done.resolve_left inside⟩
  · intro core refuted
    have asked := asked_answered t core t.solver.last
    apply wp_bind
    apply wp_refuted (asked_sane asked saneT) refuted soft
    intro v _ passed paid
    apply wp_pure
    have step : Found t 1 v := ⟨passed_trans (passed_of_asked saneT asked) passed,
      fun zero => absurd zero (by decide), fun _ => paid⟩
    obtain ⟨all, done⟩ := next 1 v step
    exact ⟨all, done.resolve_left inside⟩

theorem exclusive_pair {f : Cnf} {a b : Int} (h : Inconsistent f [a, b]) : Exclusive f [a, b] := by
  intro x memX y memY ne
  simp only [List.mem_cons, List.not_mem_nil, or_false] at memX memY
  rcases memX with rfl | rfl <;> rcases memY with rfl | rfl
  · exact absurd rfl ne
  · exact h
  · exact inconsistent_swap h
  · exact absurd rfl ne

theorem wp_pairRefuted {lit : Int} {prop : List Int} (sane : Sane s) (start : s.startSolve = true)
    (soft : 0 < s.weight lit) (implied : Implied s.solver.clauses [lit] prop) :
    Wp (StepOk lo) (pairRefuted lit prop) (Found s) s := by
  apply wp_bind
  refine wp_fold (fun xs (r : Nat × Bool) t => xs ⊆ prop ∧ Found s r.1 t ∧ (r.2 = false → 0 < t.weight lit))
    ?_ (fun r t inv => wp_pure inv.2.1) _ _ _
    ⟨List.Subset.refl _, found_asked sane (asked_refl s), fun _ => soft⟩
  rintro litProp xs ⟨n, stop⟩ t ⟨sub, found, active⟩
  have saneT := found.passed.sane
  have tail : xs ⊆ prop := fun l mem => sub (List.mem_cons_of_mem _ mem)
  apply wp_bind_read
  refine wp_ite (fun _ => wp_pure ⟨tail, found, active⟩) (fun go => ?_)
  refine wp_ite (fun negative => ?_) (fun _ => wp_pure ⟨tail, found, active⟩)
  have softT : 0 < t.weight lit := active (by simpa using go)
  have mem : litProp ∈ prop := sub (by simp)
  obtain ⟨_, _, apart, _⟩ := implied.newly litProp mem
  have opposite := saneT.wf.weight_neg litProp
  apply wp_bind
  apply wp_mono (wp_processAtMostOne (c := [-litProp, lit]) saneT
    ((passed_start found.passed).trans start) ?_ ?_ ?_)
  · rintro newAssum u ⟨processed, paid⟩
    apply wp_bind_read
    apply wp_pure
    have step : Found t 1 u := ⟨processed.passed, fun zero => absurd zero (by decide),
      fun _ => paid (by simp)⟩
    refine ⟨tail, found_trans found step, ?_⟩
    intro more
    have := steady_soft saneT.wf processed.passed.sane.wf processed.steady processed.plain softT
    have : ¬ u.weight lit = 0 := by simpa using more
    omega
  · simpa using apart
  · intro l mem
    simp only [List.mem_cons, List.not_mem_nil, or_false] at mem
    rcases mem with rfl | rfl
    · omega
    · exact softT
  · exact exclusive_pair (inconsistent_mono found.passed.clauses (implied.implied litProp mem))

theorem wp_adapt_am1_VeryFastHeuristic (sound : env.Sound) (sane : Sane s)
    (start : s.startSolve = true) :
    Wp (StepOk lo) (adapt_am1_VeryFastHeuristic env) (Found s) s :=
  wp_sweepVariables sound (fun _ _ _ saneT startT soft implied =>
    wp_pairRefuted saneT startT soft implied) sane start

theorem wp_keepExclusive {a : Int} {r : List Int} (sound : env.Sound) (sane : Sane s) :
    Wp (StepOk lo) (keepExclusive env a r) (fun kept t => Asked s t ∧ kept.Sublist r ∧
      ∀ b ∈ kept, Inconsistent s.solver.clauses [-a, -b]) s := by
  refine wp_fold (fun xs kept t => Asked s t ∧ (kept ++ xs).Sublist r ∧
    ∀ b ∈ kept, Inconsistent s.solver.clauses [-a, -b]) ?_ ?_ _ _ _
    ⟨asked_refl s, List.Sublist.refl _, by simp⟩
  · rintro b xs kept t ⟨asked, sub, shown⟩
    have skip : (kept ++ xs).Sublist r :=
      (List.Sublist.append_left (List.sublist_cons_self b xs) kept).trans sub
    apply wp_bind
    apply wp_solverSolveLimited sound (free_stepOk (asked_sane asked sane))
    · intro core model _ _
      exact wp_pure ⟨asked_trans asked (asked_answered _ _ _), skip, shown⟩
    · intro core failed refuted
      apply wp_pure
      refine ⟨asked_trans asked (asked_answered _ _ _), by rwa [List.append_assoc], ?_⟩
      intro c mem
      rcases List.mem_append.mp mem with mem | mem
      · exact shown c mem
      · rw [List.mem_singleton] at mem
        subst mem
        rw [asked_clauses asked] at refuted
        exact inconsistent_sub
          (fun l mem => List.mem_of_mem_filter (List.mem_of_mem_filter mem)) refuted
    · intro core
      exact wp_pure ⟨asked_trans asked (asked_answered _ _ _), skip, shown⟩
  · rintro kept t ⟨asked, sub, shown⟩
    rw [List.append_nil] at sub
    exact ⟨asked, sub, shown⟩

/-- What is kept of a clique, and what is still to be looked at. -/
structure Reducing (f : Cnf) (clique kept todo : List Int) : Prop where
  nonempty : kept ++ todo ≠ []
  sub : kept ++ todo ⊆ clique
  nodup : (kept ++ todo).Nodup
  pairs : ∀ a ∈ kept, ∀ b ∈ kept ++ todo, a ≠ b → Inconsistent f [-a, -b]

theorem reducing_next {f : Cnf} {clique kept rest rest' : List Int} {a : Int}
    (h : Reducing f clique kept (a :: rest)) (sub : rest'.Sublist rest)
    (shown : ∀ b ∈ rest', Inconsistent f [-a, -b]) :
    Reducing f clique (kept ++ [a]) rest' := by
  have fewer : (kept ++ [a] ++ rest').Sublist (kept ++ a :: rest) := by
    rw [List.append_assoc]
    exact List.Sublist.append_left (sub.cons_cons a) kept
  refine ⟨by simp, fun l mem => h.sub (fewer.subset mem), fewer.nodup h.nodup, ?_⟩
  intro x memX y memY ne
  rcases List.mem_append.mp memX with memX | memX
  · exact h.pairs x memX y (fewer.subset memY) ne
  · rw [List.mem_singleton] at memX
    subst memX
    rcases List.mem_append.mp memY with memY | memY
    · rcases List.mem_append.mp memY with memY | memY
      · exact inconsistent_swap (h.pairs y memY x (by simp) (Ne.symm ne))
      · rw [List.mem_singleton] at memY
        exact absurd memY.symm ne
    · exact shown y memY

theorem wp_reduceCliqueV2 {clique : List Int} (sound : env.Sound) (sane : Sane s)
    (nonempty : clique ≠ []) (nodup : clique.Nodup) :
    Wp (StepOk lo) (reduceCliqueV2 env clique) (fun kept t => Asked s t ∧
      Reducing s.solver.clauses clique kept []) s := by
  apply wp_bind_read
  obtain ⟨sorted, perm, eq⟩ : ∃ sorted, sorted.Perm clique ∧
      (if 1 < s.mapWeight2Assum.size then
        clique.insertionSort (fun a b => s.weight (-a) ≤ s.weight (-b)) else clique) = sorted := by
    refine ⟨_, ?_, rfl⟩
    split
    · exact List.perm_insertionSort _ _
    · exact List.Perm.refl _
  simp only [eq]
  have first : Reducing s.solver.clauses clique [] sorted := by
    refine ⟨?_, perm.subset, perm.symm.nodup nodup, by simp⟩
    intro empty
    apply nonempty
    have := perm.length_eq
    rw [show sorted = [] from empty] at this
    exact List.length_eq_zero_iff.mp this.symm
  refine wp_loop Nat.lt_wfRel.wf (fun b _ => b.2.length)
    (fun b t => Asked s t ∧ Reducing s.solver.clauses clique b.1 b.2) ?_ _ _ ⟨asked_refl s, first⟩
  · rintro ⟨kept, todo⟩ t ⟨asked, inv⟩
    cases todo with
    | nil => exact wp_pure ⟨asked, inv⟩
    | cons a rest =>
      apply wp_bind
      apply wp_mono (wp_keepExclusive (a := a) (r := rest) sound (asked_sane asked sane))
      rintro rest' u ⟨asked', sub, shown⟩
      rw [asked_clauses asked] at shown
      apply wp_pure
      exact ⟨⟨asked_trans asked asked', reducing_next inv sub shown⟩,
        Nat.lt_succ_of_le sub.length_le⟩

theorem wp_reduceAndProcess {lit : Int} {prop : List Int} (sound : env.Sound) (sane : Sane s)
    (start : s.startSolve = true) (soft : 0 < s.weight lit)
    (implied : Implied s.solver.clauses [lit] prop) :
    Wp (StepOk lo) (reduceAndProcess env lit prop) (Found s) s := by
  apply wp_bind_read
  refine wp_ite (fun _ => wp_pure (found_asked sane (asked_refl s))) (fun nonempty => ?_)
  apply wp_bind
  apply wp_mono (wp_reduceCliqueV2 sound sane (fun empty => nonempty (by rw [empty]; rfl))
    (implied.nodup.filter _))
  rintro kept t ⟨asked, reduced⟩
  have saneT := asked_sane asked sane
  have some_kept : kept ≠ [] := by simpa using reduced.nonempty
  have sub : ∀ l ∈ kept, l ∈ prop ∧ s.weight l < 0 := by
    intro l mem
    have := List.mem_filter.mp (reduced.sub (List.mem_append_left _ mem))
    simpa using this
  have nodup : kept.Nodup := by simpa using reduced.nodup
  have shape : (kept ++ [-lit]).map (fun l => -l) = kept.map (fun l => -l) ++ [lit] := by simp
  rw [shape]
  apply wp_bind
  apply wp_mono (wp_processAtMostOne saneT
    ((passed_start (passed_of_asked sane asked)).trans start) ?_ ?_ ?_)
  · rintro newAssum u ⟨processed, paid⟩
    apply wp_pure
    have long : 2 ≤ (kept.map (fun l => -l) ++ [lit]).length := by
      have := List.length_pos_iff.mpr some_kept
      simp only [List.length_append, List.length_map, List.length_singleton]
      omega
    have step : Found t 1 u := ⟨processed.passed, fun zero => absurd zero (by decide),
      fun _ => paid long⟩
    have all := found_trans (found_asked sane asked) step
    rwa [Nat.zero_add] at all
  · refine List.nodup_append.mpr ⟨nodup.map neg_injective, List.nodup_singleton _, ?_⟩
    intro l mem k single
    rw [List.mem_singleton] at single
    obtain ⟨j, memJ, eq⟩ := List.mem_map.mp mem
    have := (implied.newly j (sub j memJ).1).2.2.1
    rintro rfl
    exact this (by rw [List.mem_singleton, eq, single])
  · intro l mem
    rw [asked_weight asked]
    rcases List.mem_append.mp mem with mem | mem
    · obtain ⟨j, memJ, eq⟩ := List.mem_map.mp mem
      have := (sub j memJ).2
      have := sane.wf.weight_neg j
      rw [← eq]; omega
    · rw [List.mem_singleton] at mem
      rw [mem]; exact soft
  · rw [asked_clauses asked]
    intro x memX y memY ne
    rcases List.mem_append.mp memX with memX | memX <;>
      rcases List.mem_append.mp memY with memY | memY
    · obtain ⟨a, memA, rfl⟩ := List.mem_map.mp memX
      obtain ⟨b, memB, rfl⟩ := List.mem_map.mp memY
      exact reduced.pairs a memA b (by simp [memB]) (fun same => ne (by rw [same]))
    · obtain ⟨a, memA, rfl⟩ := List.mem_map.mp memX
      rw [List.mem_singleton] at memY
      rw [memY]
      exact implied.implied a (sub a memA).1
    · obtain ⟨b, memB, rfl⟩ := List.mem_map.mp memY
      rw [List.mem_singleton] at memX
      rw [memX]
      exact inconsistent_swap (implied.implied b (sub b memB).1)
    · rw [List.mem_singleton] at memX memY
      exact absurd (memX.trans memY.symm) ne

theorem wp_adapt_am1_FastHeuristicV7 (sound : env.Sound) (sane : Sane s)
    (start : s.startSolve = true) :
    Wp (StepOk lo) (adapt_am1_FastHeuristicV7 env) (Found s) s :=
  wp_sweepVariables sound (fun _ _ _ saneT startT soft implied =>
    wp_reduceAndProcess sound saneT startT soft implied) sane start

end Sweep
end EvalMaxSat
