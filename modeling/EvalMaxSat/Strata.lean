import EvalMaxSat.Minimization

/-!
Hardening and stratification: the assumptions are always the literals of weight at least
the current bound, and empty buckets are all that is ever dropped from the index.
-/
namespace EvalMaxSat
open Literals OrderedContainers LawfulSink EvalMaxSAT StepProgram

variable {K : Type} {env : Env K} {lo : Option LocalOptimizer2} {s t u : EvalMaxSAT K}

section Assumptions
variable {minWeight : Nat} {assum : OSet Int}

theorem mem_initAssum {l : Int} : l ∈ s.initAssum minWeight ↔
    ∃ w b, s.mapWeight2Assum.lookup w = some b ∧ l ∈ b ∧ minWeight ≤ w := by
  have members : ∀ (es : List (Nat × OSet Int)) (a : OSet Int),
      l ∈ es.foldl (fun a e => e.2.elems.foldl (fun a lit => a.insert lit) a) a ↔
        l ∈ a ∨ ∃ e ∈ es, l ∈ e.2 := by
    intro es
    induction es with
    | nil => simp
    | cons e es ih =>
      intro a
      rw [List.foldl_cons, ih, OSet.mem_foldl_insert]
      simp only [List.mem_cons, OSet.mem_elems, exists_eq_or_imp]
      tauto
  rw [EvalMaxSAT.initAssum, members]
  constructor
  · rintro (absent | ⟨⟨w, b⟩, mem, inB⟩)
    · exact absurd absent OSet.not_mem_empty
    · obtain ⟨entry, above⟩ := OMap.mem_downTo.mp mem
      exact ⟨w, b, OMap.mem_entries.mp entry, inB, above⟩
  · rintro ⟨w, b, found, inB, above⟩
    exact Or.inr ⟨(w, b), OMap.mem_downTo.mpr ⟨OMap.mem_entries.mpr found, above⟩, inB⟩

theorem initAssum_spec (wf : Wf s.litToRelax s) (least : 1 ≤ minWeight) :
    AssumOk minWeight s (s.initAssum minWeight) := by
  intro l
  rw [mem_initAssum]
  constructor
  · rintro ⟨w, b, found, inB, above⟩
    have := (wf.indexed l w).mp ⟨b, found, inB⟩
    omega
  · intro heavy
    have range := wf.weight_range l
    obtain ⟨b, found, inB⟩ := (wf.indexed l (s.weight l).toNat).mpr (by omega)
    exact ⟨(s.weight l).toNat, b, found, inB, by omega⟩

theorem assumOk_weight (ok : AssumOk minWeight s assum) (same : t.weight = s.weight) :
    AssumOk minWeight t assum := fun l => by rw [same]; exact ok l

theorem assumOk_nonzero (wf : Wf s.litToRelax s) (least : 1 ≤ minWeight)
    (ok : AssumOk minWeight s assum) : ∀ l ∈ assum, l ≠ 0 := by
  intro l mem
  have := (ok l).mp mem
  exact (wf.weighted_inside (by omega : s.weight l ≠ 0)).1

theorem assumOk_gives {ws : List Int} {new : Option Int} (wf : Wf ws s) (gives : Gives new s t)
    (least : 1 ≤ minWeight) (ok : AssumOk minWeight s assum) :
    AssumOk minWeight t (insertIfHeavy minWeight new assum t) := by
  cases new with
  | none => exact assumOk_weight ok gives
  | some lit =>
    obtain ⟨unweighted, nonzero, _, x, pos, range, eq⟩ := gives
    have opposite := wf.weight_neg lit
    have here : t.weight lit = x := by rw [eq, reweigh, if_pos rfl]
    have word : u64 (t.weight lit) = x.toNat := by rw [here, u64_toNat (by omega) (by omega)]
    have old : lit ∉ assum := fun mem => by have := (ok lit).mp mem; omega
    have others : ∀ l, l ≠ lit → (l ∈ assum ↔ (minWeight : Int) ≤ t.weight l) := by
      intro l ne
      rw [ok l, eq, reweigh, if_neg ne]
      split
      · rename_i same; subst same; omega
      · exact Iff.rfl
    intro l
    simp only [insertIfHeavy, word]
    by_cases same : l = lit
    · subst same
      split
      · simp only [OSet.mem_insert, true_or, true_iff]; omega
      · simp only [old, false_iff]; omega
    · split
      · rw [OSet.mem_insert, ← others l same]; tauto
      · exact others l same

end Assumptions

section Harden
variable {minWeight : Nat} {assum : OSet Int}

theorem passed_harden {lit : Int} (sane : Sane s) (soft : 0 < s.weight lit)
    (unit : UnitSpec s.litToRelax lit s t) : Passed s t ∧ t.cost = s.cost := by
  have cost : t.cost = s.cost := by rw [unit.cost, if_neg (by omega)]
  have pending : t.litToRelax = s.litToRelax := congrArg Prod.fst unit.besides
  refine ⟨⟨⟨by rw [pending]; exact unit.wf, by rw [cost]; exact sane.word⟩, unit.besides, ?_,
    unit.sim.clauses, unit.sim.vars⟩, cost⟩
  have := unit.sim.potential
  omega

theorem assumOk_harden {lit : Int} (wf : Wf s.litToRelax s) (soft : 0 < s.weight lit)
    (weight : t.weight = reweigh s.weight lit 0) (least : 1 ≤ minWeight)
    (ok : AssumOk minWeight s assum) : AssumOk minWeight t (assum.erase lit) := by
  intro l
  have opposite := wf.weight_neg lit
  rw [OSet.mem_erase, ok l, weight, reweigh]
  by_cases same : l = lit
  · subst same; simp only [ne_eq, not_true_eq_false, and_false, if_true, false_iff]; omega
  · rw [if_neg same]
    by_cases neg : l = -lit
    · subst neg; rw [if_pos rfl]; omega
    · rw [if_neg neg]; exact and_iff_left same

/-- The literals of the last bucket, of weight `w`, while they are hardened. -/
structure Hardening (w : Nat) (s : EvalMaxSAT K) (assum : OSet Int) (todo : List Int)
    (r : OSet Int) (t : EvalMaxSAT K) : Prop where
  passed : Passed s t
  cost : t.cost = s.cost
  keys : t.mapWeight2Assum.keys = s.mapWeight2Assum.keys
  assums : ∀ minWeight, 1 ≤ minWeight → AssumOk minWeight s assum → AssumOk minWeight t r
  nodup : todo.Nodup
  bucket : ∀ l, l ∈ todo ↔ t.weight l = w

theorem hardening_next {w : Nat} {todo : List Int} {r : OSet Int} {lit : Int} (pos : 0 < w)
    (inv : Hardening w s assum (lit :: todo) r t) (unit : UnitSpec t.litToRelax lit t u) :
    Hardening w s assum todo (r.erase lit) u := by
  have sane := inv.passed.sane
  have here : t.weight lit = w := (inv.bucket lit).mp (by simp)
  have soft : 0 < t.weight lit := by omega
  obtain ⟨step, cost⟩ := passed_harden sane soft unit
  obtain ⟨weight, map⟩ := unit.lost (by omega)
  obtain ⟨apart, nodup⟩ := List.nodup_cons.mp inv.nodup
  have opposite := sane.wf.weight_neg lit
  have range := sane.wf.weight_range lit
  have keys : u.mapWeight2Assum.keys = t.mapWeight2Assum.keys := by
    obtain ⟨b, found, _⟩ := (sane.wf.indexed lit w).mpr ⟨pos, here⟩
    have word : u64 (t.weight lit) = w := by rw [here, u64_of_nat (by omega)]
    rw [map, if_neg (by omega), word]
    exact OMap.keys_modify _ found
  refine ⟨passed_trans inv.passed step, cost.trans inv.cost, keys.trans inv.keys,
    fun minWeight least ok =>
      assumOk_harden sane.wf soft weight least (inv.assums minWeight least ok), nodup, ?_⟩
  intro l
  have old := inv.bucket l
  rw [List.mem_cons] at old
  rw [weight, reweigh]
  by_cases same : l = lit
  · subst same; rw [if_pos rfl]; simp only [apart, false_iff]; omega
  · rw [if_neg same]
    by_cases neg : l = -lit
    · subst neg
      rw [if_pos rfl]
      constructor
      · intro mem; have := old.mp (Or.inr mem); omega
      · intro eq; omega
    · rw [if_neg neg, ← old]
      simp [same]

structure Hardened (s : EvalMaxSAT K) (assum : OSet Int) (r : OSet Int) (t : EvalMaxSAT K) :
    Prop where
  passed : Passed s t
  cost : t.cost = s.cost
  assums : ∀ minWeight, 1 ≤ minWeight → AssumOk minWeight s assum → AssumOk minWeight t r

theorem hardened_refl {a : OSet Int} (sane : Sane s) : Hardened s a a s :=
  ⟨passed_of_asked sane (asked_refl s), rfl, fun _ _ ok => ok⟩

theorem hardened_trans {r q : OSet Int} (first : Hardened s assum r t) (second : Hardened t r q u) :
    Hardened s assum q u :=
  ⟨passed_trans first.passed second.passed, second.cost.trans first.cost,
    fun minWeight least ok => second.assums minWeight least (first.assums minWeight least ok)⟩

theorem isIncremental_passed (h : Passed s t) : t.isIncremental = s.isIncremental :=
  congrArg (fun a => a.2.2.2.1.2.2.2.2) (passed_aside h)

theorem solutionCost_passed (h : Passed s t) : t.solutionCost = s.solutionCost :=
  congrArg (fun a => a.2.2.1) (passed_aside h)

theorem wp_hardenLits {a : OSet Int} {w n : Nat} {lits : OSet Int} (sane : Sane s) (mode : s.isIncremental = false)
    (found : s.mapWeight2Assum.lookup w = some lits)
    (heavy : u64 ((s.solutionCost : Int) - s.cost) ≤ w) :
    Wp (StepOk lo) (hardenLits lits.elems n a) (fun r t => Hardened s a r.2 t ∧
      t.mapWeight2Assum.keys = s.mapWeight2Assum.keys ∧
      ∀ b, t.mapWeight2Assum.lookup w = some b → b.elems = []) s := by
  by_cases empty : lits.elems = []
  · rw [empty]
    refine wp_pure ⟨hardened_refl sane, rfl, fun b here => ?_⟩
    rw [Option.some.inj (here.symm.trans found)]; exact empty
  obtain ⟨first, mem⟩ := List.exists_mem_of_ne_nil _ empty
  have inBucket : ∀ l, l ∈ lits.elems ↔ 0 < w ∧ s.weight l = w := by
    intro l
    rw [← sane.wf.indexed l w]
    constructor
    · intro mem; exact ⟨lits, found, mem⟩
    · rintro ⟨b, here, mem⟩
      rwa [Option.some.inj (here.symm.trans found)] at mem
  have pos : 0 < w := ((inBucket first).mp mem).1
  refine wp_fold (fun xs r t => Hardening w s a xs r.2 t) ?_ ?_ _ _ _
    ⟨passed_of_asked sane (asked_refl s), rfl, rfl, fun _ _ ok => ok, lits.nodup, fun l => by
      rw [inBucket l]; exact and_iff_right pos⟩
  · rintro lit xs ⟨k, r⟩ t inv
    have saneT := inv.passed.sane
    have here : t.weight lit = w := (inv.bucket lit).mp (by simp)
    obtain ⟨nonzero, bound⟩ := saneT.wf.weighted_inside (by omega : t.weight lit ≠ 0)
    have unit := addUnit_spec saneT.wf nonzero bound
    obtain ⟨step, _⟩ := passed_harden saneT (by omega) unit
    apply wp_bind
    refine wp_act ⟨saneT, step.sane, ?_, lit, ?_, ?_, unit⟩ ?_
    · exact (isIncremental_passed inv.passed).trans mode
    · change 0 < t.weight lit; omega
    · change (u64 ((t.solutionCost : Int) - t.cost) : Int) ≤ t.weight lit
      rw [solutionCost_passed inv.passed, inv.cost, here]
      exact_mod_cast heavy
    · exact wp_pure (hardening_next pos inv unit)
  · rintro ⟨k, r⟩ t inv
    refine ⟨⟨inv.passed, inv.cost, inv.assums⟩, inv.keys, fun b here => ?_⟩
    apply List.eq_nil_iff_forall_not_mem.mpr
    intro l mem
    have := ((inv.passed.sane.wf.indexed l w).mp ⟨b, here, mem⟩).2
    have := (inv.bucket l).mpr this
    simp at this

theorem sane_drop {w : Nat} (sane : Sane s)
    (empty : ∀ b, s.mapWeight2Assum.lookup w = some b → b.elems = []) :
    Sane { s with mapWeight2Assum := s.mapWeight2Assum.eraseKey w } := by
  refine ⟨wf_reindex sane.wf rfl rfl rfl ?_ rfl rfl rfl, sane.word⟩
  intro l v
  rw [← sane.wf.indexed l v]
  simp only [InBucket, OMap.lookup_eraseKey]
  by_cases same : v = w
  · subst same
    simp only [if_true, reduceCtorEq, false_and, exists_false, false_iff, not_exists, not_and]
    intro b found mem
    have := empty b found
    rw [← OSet.mem_elems, this] at mem
    simp at mem
  · simp [same]

theorem passed_drop {w : Nat} (sane : Sane s)
    (empty : ∀ b, s.mapWeight2Assum.lookup w = some b → b.elems = []) :
    Passed s { s with mapWeight2Assum := s.mapWeight2Assum.eraseKey w } :=
  ⟨sane_drop sane empty, rfl, Nat.le_refl _, List.Subset.refl _, Nat.le_refl _⟩

theorem wp_harden (sane : Sane s) :
    Wp (StepOk lo) (harden assum) (fun r t => Hardened s assum r.2 t) s := by
  have idle := hardened_refl (a := assum) sane
  apply wp_bind_read
  refine wp_ite (fun _ => wp_pure idle) (fun mode => ?_)
  refine wp_ite (fun _ => wp_pure idle) (fun _ => ?_)
  refine wp_ite (fun _ => wp_pure idle) (fun _ => ?_)
  refine wp_loop Nat.lt_wfRel.wf (fun _ t => t.mapWeight2Assum.size)
    (fun b t => Hardened s assum b.2 t) ?_ _ _ idle
  rintro ⟨n, r⟩ t inv
  replace inv : Hardened s assum r t := inv
  have saneT := inv.passed.sane
  apply wp_bind_read
  cases last : t.mapWeight2Assum.last? with
  | none => exact wp_pure inv
  | some e =>
    obtain ⟨w, lits⟩ := e
    obtain ⟨found, _⟩ := OMap.last?_spec last
    refine wp_ite (fun _ => wp_pure inv) (fun heavy => ?_)
    apply wp_bind
    apply wp_mono (wp_hardenLits (a := r) saneT
      ((isIncremental_passed inv.passed).trans (by simpa using mode)) found
      (by rw [solutionCost_passed inv.passed, inv.cost]; omega))
    rintro ⟨k, q⟩ u ⟨step, keys, empty⟩
    have all := hardened_trans inv step
    apply wp_bind_read
    refine wp_ite (fun _ => wp_pure all) (fun _ => ?_)
    obtain ⟨c, last'⟩ := OMap.last?_of_keys keys last
    have emptied := empty c (OMap.last?_spec last').1
    simp only [last', emptied, if_true]
    have dropped := passed_drop step.passed.sane empty
    apply wp_bind
    refine wp_act ⟨step.passed.sane, dropped.sane, _, rfl⟩ ?_
    apply wp_pure
    refine ⟨hardened_trans all ⟨dropped, rfl, fun _ _ ok => ok⟩, ?_⟩
    have less := OMap.size_eraseKey (OMap.last?_spec last').1
    have := OMap.size_of_keys keys
    change (u.mapWeight2Assum.eraseKey w).size < t.mapWeight2Assum.size
    omega

end Harden

section Choose

structure Thins (s t : EvalMaxSAT K) : Prop where
  eq : t = { s with mapWeight2Assum := t.mapWeight2Assum }
  kept : ∀ w b, t.mapWeight2Assum.lookup w = some b → s.mapWeight2Assum.lookup w = some b
  gone : ∀ w b, s.mapWeight2Assum.lookup w = some b → t.mapWeight2Assum.lookup w = none →
    b.elems = []

theorem thins_refl (s : EvalMaxSAT K) : Thins s s where
  eq := rfl
  kept := fun _ _ found => found
  gone := by
    intro w b found none
    rw [found] at none
    simp at none

theorem thins_trans (first : Thins s t) (second : Thins t u) : Thins s u where
  eq := by rw [second.eq, first.eq]
  kept := fun w b found => first.kept w b (second.kept w b found)
  gone := by
    intro w b found none
    cases middle : t.mapWeight2Assum.lookup w with
    | none => exact first.gone w b found middle
    | some c =>
      have same := Option.some.inj ((first.kept w c middle).symm.trans found)
      rw [← same]
      exact second.gone w c middle none

theorem thins_drop {w : Nat} {b : OSet Int} (found : s.mapWeight2Assum.lookup w = some b)
    (empty : b.elems = []) :
    Thins s { s with mapWeight2Assum := s.mapWeight2Assum.eraseKey w } where
  eq := rfl
  kept := by
    intro v c here
    rw [OMap.lookup_eraseKey] at here
    split at here
    · simp at here
    · exact here
  gone := by
    intro v c here none
    rw [OMap.lookup_eraseKey] at none
    split at none
    · rename_i same
      rw [same, found] at here
      rw [← Option.some.inj here]
      exact empty
    · rw [here] at none
      simp at none

theorem thins_bucket {w : Nat} {b : OSet Int} {l : Int} (thins : Thins s t)
    (found : s.mapWeight2Assum.lookup w = some b) (mem : l ∈ b) :
    t.mapWeight2Assum.lookup w = some b := by
  cases here : t.mapWeight2Assum.lookup w with
  | none =>
    rw [← OSet.mem_elems, thins.gone w b found here] at mem
    simp at mem
  | some c => rw [← found, thins.kept w c here]

theorem thins_sane (sane : Sane s) (thins : Thins s t) : Sane t := by
  have indexed : Indexes t.mapWeight2Assum s.weight := by
    intro l w
    rw [← sane.wf.indexed l w]
    constructor
    · rintro ⟨b, found, mem⟩
      exact ⟨b, thins.kept w b found, mem⟩
    · rintro ⟨b, found, mem⟩
      exact ⟨b, thins_bucket thins found mem, mem⟩
  rw [thins.eq]
  exact ⟨wf_reindex sane.wf rfl rfl rfl indexed rfl rfl rfl, sane.word⟩

def PositiveKeys (s : EvalMaxSAT K) : Prop :=
  ∀ w b, s.mapWeight2Assum.lookup w = some b → b.elems ≠ [] → 0 < w

theorem positiveKeys_sane (sane : Sane s) : PositiveKeys s := by
  intro w b found nonempty
  obtain ⟨l, mem⟩ := List.exists_mem_of_ne_nil _ nonempty
  exact ((sane.wf.indexed l w).mp ⟨b, found, mem⟩).1

theorem positiveKeys_thins (positive : PositiveKeys s) (thins : Thins s t) : PositiveKeys t :=
  fun w b found => positive w b (thins.kept w b found)

/-- The next bound is smaller, and it is 1 or the weight of some literals. -/
structure NextBound (bound w : Nat) (t : EvalMaxSAT K) : Prop where
  least : 1 ≤ w
  less : 1 < bound → w < bound
  inhabited : w = 1 ∨ ∃ b, t.mapWeight2Assum.lookup w = some b ∧ b.elems ≠ []

theorem nextBound_one {bound : Nat} : NextBound bound 1 t := ⟨Nat.le_refl _, fun h => h, Or.inl rfl⟩

theorem wp_chooseNextMinWeight {E : Event StepKind (EvalMaxSAT K) → Prop} {bound : Nat}
    (free : ∀ t u, Thins s t → Thins t u → E ⟨.dropBucket, t, u⟩) (positive : PositiveKeys s) :
    Wp E (chooseNextMinWeight env bound) (fun w t => Thins s t ∧ NextBound bound w t) s := by
  apply wp_bind_read
  refine wp_ite (fun _ => wp_pure ⟨thins_refl s, nextBound_one⟩) (fun _ => ?_)
  refine wp_loop lex_wf (fun w t => (t.mapWeight2Assum.size, w))
    (fun w t => Thins s t ∧ w ≤ bound) ?_ _ _ ⟨thins_refl s, Nat.le_refl _⟩
  rintro v t ⟨thins, le⟩
  apply wp_bind_read
  cases before : t.mapWeight2Assum.before? v with
  | none => exact wp_pure ⟨thins, nextBound_one⟩
  | some e =>
    obtain ⟨w, lits⟩ := e
    obtain ⟨found, less, _⟩ := OMap.before?_spec before
    refine wp_ite (fun empty => ?_) (fun nonempty => ?_)
    · have dropped := thins_drop found empty
      have all := thins_trans thins dropped
      apply wp_bind
      refine wp_act (free _ _ thins dropped) ?_
      apply wp_bind_read
      refine wp_ite (fun _ => wp_pure ⟨all, nextBound_one⟩) (fun _ => ?_)
      exact wp_pure ⟨⟨all, le⟩, Prod.Lex.left _ _ (OMap.size_eraseKey found)⟩
    · cases stepBack env t.mapWeight2Assum w with
      | none => exact wp_pure ⟨thins, nextBound_one⟩
      | some w2 =>
        refine wp_ite (fun _ => wp_pure ⟨thins, ?_, ?_, ?_⟩) (fun _ => ?_)
        · exact positiveKeys_thins positive thins w lits found nonempty
        · exact fun _ => Nat.lt_of_lt_of_le less le
        · exact Or.inr ⟨lits, found, nonempty⟩
        · exact wp_pure ⟨⟨thins, by omega⟩, lex_of_le (Nat.le_refl _) less⟩

theorem stepOk_drop (sane : Sane s) (thins : Thins s t) : StepOk lo ⟨.dropBucket, s, t⟩ :=
  ⟨sane, thins_sane sane thins, _, thins.eq⟩

theorem wp_nextBound {bound : Nat} (sane : Sane s) :
    Wp (StepOk lo) (chooseNextMinWeight env bound) (fun w t => Thins s t ∧ NextBound bound w t) s :=
  wp_chooseNextMinWeight (fun _ _ before after => stepOk_drop (thins_sane sane before) after)
    (positiveKeys_sane sane)

end Choose
end EvalMaxSat
