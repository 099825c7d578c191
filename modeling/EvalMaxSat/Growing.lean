import EvalMaxSat.Reweighing

/-!
New variables and new clauses: what survives them, and when they change nothing about
the problem described.
-/
namespace EvalMaxSat
open Literals OrderedContainers LawfulSink

variable {K : Type} {ws : List Int} {s t : EvalMaxSAT K} {n : Nat} {cs : Cnf}

@[simp] theorem weight_grow {f : Cnf} : (s.grow n f).weight = s.weight :=
  funext fun lit => WeightVector.get_append n lit

@[simp] theorem cardOf_grow {f : Cnf} (v : Nat) : (s.grow n f).cardOf v = s.cardOf v := by
  simp only [EvalMaxSAT.cardOf, EvalMaxSAT.grow]
  by_cases old : v < s.mapAssum2Card.length
  · rw [List.getD_append _ _ _ _ old]
  · rw [List.getD_append_right _ _ _ _ (Nat.le_of_not_lt old),
      List.getD_eq_default _ _ (Nat.le_of_not_lt old), List.getD_eq_getElem?_getD,
      List.getElem?_replicate]
    split <;> rfl

@[simp] theorem owed_grow {f : Cnf} (γ : Gauge) : (s.grow n f).owed γ = s.owed γ := by
  simp only [EvalMaxSAT.owed, EvalMaxSAT.grow, WeightVector.softSum_append]

theorem wf_grow (wf : Wf ws s) (within : ∀ c ∈ cs, Within (s.solver.nVar + n) c) :
    Wf ws (s.grow n cs) where
  poidsSize := by
    have := wf.poidsSize
    simp only [WeightVector.size] at this
    simp only [EvalMaxSAT.grow, WeightVector.size, List.length_append, List.length_replicate]
    omega
  entriesSize := by
    have := wf.entriesSize
    simp only [EvalMaxSAT.grow, List.length_append, List.length_replicate]; omega
  zero := by rw [weight_grow]; exact wf.zero
  within := by
    intro c mem
    rcases List.mem_append.mp mem with mem | mem
    · exact within_mono (Nat.le_add_right _ _) (wf.within c mem)
    · exact within c mem
  poids_bounded := WeightVector.bounded_append wf.poids_bounded n
  indexed := by rw [weight_grow]; exact wf.indexed
  pending := fun p mem =>
    let ⟨nonempty, inside, weight⟩ := wf.pending p mem
    ⟨nonempty, within_mono (Nat.le_add_right _ _) inside, weight⟩
  cards := fun c o cell => cardOk_transfer (wf.cards c o cell) (Nat.le_add_right _ _)
    (List.subset_append_left _ _) (fun _ _ _ => ⟨by rw [weight_grow], cardOf_grow _⟩)
    (fun _ _ h => h)
  entries := fun v e entry => wf.entries v e (by rwa [cardOf_grow] at entry)
  disjoint := wf.disjoint
  nodup := wf.nodup
  waiting := fun l mem =>
    let ⟨unweighted, v, e, o, eq, entry, rest⟩ := wf.waiting l mem
    ⟨by rw [weight_grow]; exact unweighted, v, e, o, eq, by rw [cardOf_grow]; exact entry, rest⟩

theorem falsified_agree {k : Nat} {m j : Assignment} {l : Int} (agree : AgreeUpTo k m j)
    (bound : l.natAbs ≤ k) : falsified j l = falsified m l := by
  simp only [falsified, litTrue_agree agree bound]

theorem falseCount_agree {k : Nat} {m j : Assignment} {c : Clause} (agree : AgreeUpTo k m j)
    (within : Within k c) : falseCount (falsified j) c = falseCount (falsified m) c := by
  apply List.countP_congr
  intro l mem
  rw [falsified_agree agree (by rw [Int.natAbs_neg]; exact (within l mem).2)]

theorem owed_agree (wf : Wf ws s) {m k : Assignment} (agree : AgreeUpTo s.solver.nVar m k) :
    s.owed (falsified k) = s.owed (falsified m) := by
  have soft : softSum (falsified k) s.poids = softSum (falsified m) s.poids := by
    apply Finset.sum_congr rfl
    intro i mem
    have bound : i ≤ s.solver.nVar := by
      have := Finset.mem_range.mp mem
      rw [wf.poidsSize] at this; omega
    rw [charge, charge, falsified_agree agree (by omega), falsified_agree agree (by omega)]
  have pending : pendingSum (falsified k) s.cardToAdd = pendingSum (falsified m) s.cardToAdd := by
    unfold pendingSum
    congr 1
    apply List.map_congr_left
    intro p mem
    rw [falseCount_agree agree (wf.pending p mem).2.1]
  have cards : cardSum (falsified k) s.cards = cardSum (falsified m) s.cards := by
    unfold cardSum
    congr 1
    apply List.map_congr_left
    intro o mem
    obtain ⟨c, cell⟩ := List.mem_iff_getElem?.mp mem
    have within : Within s.solver.nVar o.card.inputs :=
      (wf.cards c o cell).ready.tree.varsUpTo.1
    rw [CardObject.charge, CardObject.charge, falseCount_agree agree within]
  simp only [EvalMaxSAT.owed, soft, pending, cards]

theorem canonical_agree (wf : Wf ws s) {m k : Assignment} (agree : AgreeUpTo s.solver.nVar m k)
    (canonical : s.Canonical m) : s.Canonical k := by
  intro o mem
  obtain ⟨c, cell⟩ := List.mem_iff_getElem?.mp mem
  exact TotTree.exact_agree agree (wf.cards c o cell).ready.tree.varsUpTo (canonical o mem)

theorem simOn_grow {φ : Assignment → Prop} (wf : Wf ws s)
    (extend : ∀ m, Models m s.solver.clauses → s.Canonical m → φ m →
      ∃ k, AgreeUpTo s.solver.nVar m k ∧ Models k cs) : SimOn φ (fun _ => 0) s (s.grow n cs) where
  vars := Nat.le_add_right _ _
  clauses := List.subset_append_left _ _
  plain := fun _ _ => Iff.rfl
  potential := by simp only [EvalMaxSAT.potential, owed_grow, Nat.add_zero]
  forward := by
    intro m models canonical holds
    obtain ⟨k, agree, added⟩ := extend m models canonical holds
    refine ⟨k, agree, models_append.mpr ⟨(models_agree agree wf.within).mpr models, added⟩,
      canonical_agree wf agree canonical, ?_⟩
    rw [owed_grow, owed_agree wf agree, Nat.add_zero]
  backward := fun m _ => by rw [owed_grow]; exact Nat.le_refl _

theorem newVar_eq (s : EvalMaxSAT K) :
    s.newVar = (((s.solver.nVar + 1 : Nat) : Int), s.grow 1 []) := by
  simp [EvalMaxSAT.newVar, EvalMaxSAT.grow, Solver_cadical.newVar, WeightVector.pushBack]

theorem solver_addClause_eq {c : Clause} (within : Within s.solver.nVar c) :
    { s with solver := s.solver.addClause c } = s.grow 0 [c] := by
  simp [EvalMaxSAT.grow, addClause_eq within]

theorem simOn_addClause (wf : Wf ws s) (c : Clause) :
    SimOn (Holds · c) (fun _ => 0) s (s.grow 0 [c]) :=
  simOn_grow wf fun m _ _ holds => ⟨m, agree_refl _ m, models_singleton.mpr holds⟩

theorem wf_fixed {lit : Int} (wf : Wf (lit :: ws) s) (unit : [lit] ∈ s.solver.clauses) :
    Wf ws s :=
  { wf with
    cards := by
      intro c o cell
      have ok := wf.cards c o cell
      refine { ok with last := ?_ }
      obtain ⟨x, made, state⟩ := ok.last
      refine ⟨x, made, ?_⟩
      rcases state with active | waits | other
      · exact Or.inl active
      · rcases List.mem_cons.mp waits with same | waits
        · exact Or.inr (Or.inr (Or.inl (by rw [same]; exact unit)))
        · exact Or.inr (Or.inl waits)
      · exact Or.inr (Or.inr other)
    nodup := (List.nodup_cons.mp wf.nodup).2
    waiting := fun l mem => wf.waiting l (List.mem_cons_of_mem _ mem) }

theorem wf_reset {v : Nat} (wf : Wf ws s) (unweighted : s.weight v = 0)
    (away : ∀ l ∈ ws, l.natAbs ≠ v) :
    Wf ws { s with mapAssum2Card := s.mapAssum2Card.set v none } := by
  have cardOf : ∀ u, u ≠ v → EvalMaxSAT.cardOf
      { s with mapAssum2Card := s.mapAssum2Card.set v none } u = s.cardOf u := by
    intro u ne
    simp only [EvalMaxSAT.cardOf, List.getD_eq_getElem?_getD, List.getElem?_set_ne (Ne.symm ne)]
  have cleared : EvalMaxSAT.cardOf
      { s with mapAssum2Card := s.mapAssum2Card.set v none } v = none := by
    simp only [EvalMaxSAT.cardOf, List.getD_eq_getElem?_getD, List.getElem?_set_self']
    cases s.mapAssum2Card[v]? <;> rfl
  refine ⟨wf.poidsSize, ?_, wf.zero, wf.within, wf.poids_bounded, wf.indexed, wf.pending, ?_, ?_,
    wf.disjoint, wf.nodup, ?_⟩
  · simp only [List.length_set]; exact wf.entriesSize
  · intro c o cell
    have ok := wf.cards c o cell
    refine ⟨CardIncremental_Lazy.ready_later ok.ready (Nat.le_refl _) (List.Subset.refl _),
      ok.level_pos, ok.level_lt, ok.weight_pos, ok.weight_lt, ?_, ok.last⟩
    intro k x made
    refine ⟨(ok.outputs k x made).1, fun weighted => ?_⟩
    have pos := (wf.output_pos cell made).1
    rw [cardOf]
    · exact (ok.outputs k x made).2 weighted
    · intro same
      apply weighted
      have : x = (v : Int) := by omega
      rw [this]; exact unweighted
  · intro u e entry
    by_cases same : u = v
    · subst same; rw [cleared] at entry; simp at entry
    · rw [cardOf u same] at entry
      exact wf.entries u e entry
  · intro l mem
    obtain ⟨unweighted', u, e, o, eq, entry, rest⟩ := wf.waiting l mem
    refine ⟨unweighted', u, e, o, eq, ?_, rest⟩
    rw [cardOf u]
    · exact entry
    · have := away l mem; omega

end EvalMaxSat
