import EvalMaxSat.Levels

/-!
`relax`, the creation of a cardinality, and hard clauses, in terms of the invariant.
-/
namespace EvalMaxSat
open Literals OrderedContainers LawfulSink

variable {K : Type} {ws : List Int} {s t : EvalMaxSAT K} {e : LitCard} {o : CardObject}

theorem nextLevel_final (cell : s.cards[e.card]? = some o)
    (final : o.card.maxVars ≤ e.atMost + 1) : s.nextLevel e o = (none, s) := by
  have same : s.cards.set e.card o = s.cards := by
    apply List.ext_getElem?
    intro i
    rw [List.getElem?_set]
    split
    · rename_i eq; subst eq
      rw [cell, if_pos (List.getElem?_eq_some_iff.mp cell).1]
    · rfl
  simp only [EvalMaxSAT.nextLevel, CardIncremental_Lazy.atMost_none final]
  rw [same]
  simp

theorem modify_set {α : Type} (xs : List α) (i : Nat) (x : α) (f : α → α) :
    (xs.set i x).modify i f = xs.set i (f x) := by
  apply List.ext_getElem?
  intro j
  rw [List.getElem?_modify, List.getElem?_set, List.getElem?_set]
  by_cases same : i = j
  · subst same
    by_cases inside : i < xs.length <;> simp [inside]
  · simp [same]

theorem activate_eq {n v w L : Nat} {cs : Cnf} {cards : List CardObject} {c : Nat}
    (bounded : s.poids.Bounded) (inside : v < (s.grow n cs).poids.size) (pos : 0 < v)
    (range : w < 2 ^ 63) :
    EvalMaxSAT.activate (-(v : Int)) ⟨c, L, w⟩ { s.grow n cs with cards := cards } =
      (s.grow n cs).install (cards.modify c fun p => { p with level := L }) v ⟨c, L, w⟩ := by
  have grown : (s.grow n cs).poids.Bounded := WeightVector.bounded_append bounded n
  have word : i64 (w : Int) = w := i64_of_range (by omega) (by omega)
  have read : ((s.grow n cs).poids.set (-(v : Int)) w).get (-(v : Int)) = w := by
    rw [WeightVector.get_set grown (by omega) (by rw [Int.natAbs_neg]; exact inside) (by omega),
      if_pos rfl]
  simp only [EvalMaxSAT.activate, EvalMaxSAT.install, word, read, u64_of_nat (by omega : w < 2 ^ 64),
    Int.natAbs_neg, Int.natAbs_natCast]

theorem nextLevel_raise (bounded : s.poids.Bounded) (size : s.poids.size = s.solver.nVar + 1)
    (within : ClausesWithin s) (ready : o.card.Ready s) (shape : e = ⟨e.card, o.level, o.initialWeight⟩)
    (range : o.initialWeight < 2 ^ 63) (more : o.level + 1 < o.card.inputs.length)
    (free : ∀ n cs v card, o.card.AtMostSpec (o.level + 1) s v card (s.grow n cs) →
      s.cardOf v = none) :
    ∃ n cs v card, o.card.AtMostSpec (o.level + 1) s v card (s.grow n cs) ∧
      s.nextLevel e o = (some (-(v : Int)), s.raise n cs e o v card) := by
  have maxVars := ready.maxVars
  obtain ⟨v, literal, spec⟩ := CardIncremental_Lazy.atMost_spec ready within
    (k := o.level + 1) (by omega)
  obtain ⟨n, cs, grown⟩ := spec.extend.2.2.1
  generalize out : o.card.atMost (o.level + 1) s = r at literal spec grown
  obtain ⟨x, card, s'⟩ := r
  simp only at literal spec grown
  subst literal; subst grown
  refine ⟨n, cs, v, card, spec, ?_⟩
  have level : e.atMost = o.level := by rw [shape]
  have unentered : EvalMaxSAT.cardOf { s.grow n cs with
      cards := (s.grow n cs).cards.set e.card { o with card := card } } v = none := by
    have := free n cs v card spec
    rw [← cardOf_grow (n := n) (f := cs)] at this
    exact this
  have inside : v < (s.grow n cs).poids.size := by
    have := spec.bound
    simp only [vars_eq] at this
    simp only [EvalMaxSAT.grow, WeightVector.size, List.length_append, List.length_replicate] at this ⊢
    simp only [WeightVector.size] at size
    omega
  have pos := spec.positive
  have next : { e with atMost := e.atMost + 1 } = (⟨e.card, o.level + 1, o.initialWeight⟩ : LitCard) := by
    rw [shape]
  rw [EvalMaxSAT.nextLevel, level, out]
  simp only [Int.natAbs_neg, Int.natAbs_natCast]
  rw [if_pos ⟨by omega, unentered⟩, ← level, next, activate_eq bounded inside pos range, modify_set]
  rfl

theorem relax_none {lit : Int} (entry : s.cardOf lit.natAbs = none) : s.relax lit = (none, s) := by
  simp only [EvalMaxSAT.relax, entry]

theorem relax_some {lit : Int} (entry : s.cardOf lit.natAbs = some e)
    (cell : s.cards[e.card]? = some o) :
    s.relax lit = ((s.nextLevel e o).1, (s.nextLevel e o).2.resetEntry lit) := by
  simp only [EvalMaxSAT.relax, entry, cell]

theorem Heads.wf_final {u : Nat} (h : Heads s ws u e o)
    (final : o.card.inputs.length ≤ o.level + 1) : Wf ws s :=
  { h.wf with
    cards := by
      intro d p cell
      have ok := h.wf.cards d p cell
      refine { ok with last := ?_ }
      obtain ⟨x, made, state⟩ := ok.last
      refine ⟨x, made, ?_⟩
      rcases state with active | waits | other
      · exact Or.inl active
      · rcases List.mem_cons.mp waits with same | waits
        · have : x = (u : Int) := by omega
          subst this
          obtain ⟨mine, _⟩ := h.wf.disjoint _ _ _ _ _ _ _ h.cell cell h.entry_eq.2 made
          rw [← mine] at cell
          have : o = p := Option.some.inj (h.cell.symm.trans cell)
          subst this
          exact Or.inr (Or.inr (Or.inr (by have := ok.level_lt; omega)))
        · exact Or.inr (Or.inl waits)
      · exact Or.inr (Or.inr other)
    nodup := (List.nodup_cons.mp h.wf.nodup).2
    waiting := fun l mem => h.wf.waiting l (List.mem_cons_of_mem _ mem) }

theorem Heads.nextLevel_spec {u : Nat} (h : Heads s ws u e o) :
    Wf ws (s.nextLevel e o).2 ∧ Sim (fun _ => 0) s (s.nextLevel e o).2 ∧
      Gives (s.nextLevel e o).1 s (s.nextLevel e o).2 ∧
      (s.nextLevel e o).2.outside = s.outside ∧ Climbs 0 s (s.nextLevel e o).2 := by
  have ok := h.wf.cards _ _ h.cell
  by_cases more : o.level + 1 < o.card.inputs.length
  · obtain ⟨n, cs, v, card, spec, eq⟩ := nextLevel_raise h.wf.poids_bounded h.wf.poidsSize
      h.wf.within ok.ready h.entry_eq.1 ok.weight_lt more
      (fun n cs v card spec => (h.next_free spec).2.1)
    rw [eq]
    obtain ⟨wf, sim, gives, climbs⟩ := h.raise_spec more spec
    exact ⟨wf, sim, gives, rfl, climbs⟩
  · have maxVars := ok.ready.maxVars
    rw [nextLevel_final h.cell (by rw [h.atLevel]; omega)]
    exact ⟨h.wf_final (by omega), sim_refl s, rfl, rfl, climbs_refl h.wf⟩

theorem resetEntry_spec {lit : Int} (wf : Wf ws s) (away : ∀ l ∈ ws, l.natAbs ≠ lit.natAbs) :
    Wf ws (s.resetEntry lit) := by
  unfold EvalMaxSAT.resetEntry
  split
  · rename_i unweighted
    apply wf_reset wf _ away
    rcases Int.natAbs_eq lit with same | same
    · rw [← same]; exact unweighted
    · have := wf.weight_neg lit
      have : (lit.natAbs : Int) = -lit := by omega
      rw [this]; omega
  · exact wf

theorem simOn_resetEntry {φ : Assignment → Prop} {less : Gauge → Nat} {lit : Int}
    (sim : SimOn φ less s t) : SimOn φ less s (t.resetEntry lit) := by
  unfold EvalMaxSAT.resetEntry
  split
  · exact ⟨sim.vars, sim.clauses, sim.plain, sim.potential, sim.forward, sim.backward⟩
  · exact sim

@[simp] theorem weight_resetEntry {lit : Int} : (s.resetEntry lit).weight = s.weight := by
  unfold EvalMaxSAT.resetEntry
  split <;> rfl

theorem climbs_resetEntry {n : Nat} {lit : Int} (climbs : Climbs n s t) :
    Climbs n s (t.resetEntry lit) := by
  unfold EvalMaxSAT.resetEntry
  split
  · exact climbs_congr climbs rfl rfl rfl rfl rfl rfl
  · exact climbs

@[simp] theorem outside_resetEntry {lit : Int} : (s.resetEntry lit).outside = s.outside := by
  unfold EvalMaxSAT.resetEntry
  split <;> rfl

theorem gives_resetEntry {new : Option Int} {lit : Int} (gives : Gives new s t) :
    Gives new s (t.resetEntry lit) := by
  cases new with
  | none => simp only [Gives, weight_resetEntry] at gives ⊢; exact gives
  | some l =>
    have plain : (t.resetEntry lit).Plain l.natAbs ↔ t.Plain l.natAbs := by
      unfold EvalMaxSAT.resetEntry
      split <;> exact Iff.rfl
    simp only [Gives, weight_resetEntry, plain] at gives ⊢
    exact gives

theorem relax_spec {lit : Int} (wf : Wf (lit :: ws) s) :
    Wf ws (s.relax lit).2 ∧ Sim (fun _ => 0) s (s.relax lit).2 ∧
      Gives (s.relax lit).1 s (s.relax lit).2 ∧ (s.relax lit).2.outside = s.outside ∧
      Climbs 0 s (s.relax lit).2 := by
  obtain ⟨u, e, o, eq, h⟩ := heads_of_wf wf
  subst eq
  have entry : s.cardOf (-(u : Int)).natAbs = some e := by
    rw [Int.natAbs_neg, Int.natAbs_natCast]; exact h.entry
  rw [relax_some entry h.cell]
  obtain ⟨wf', sim, gives, outside, climbs⟩ := h.nextLevel_spec
  refine ⟨resetEntry_spec wf' ?_, simOn_resetEntry sim, gives_resetEntry gives,
    by rw [outside_resetEntry]; exact outside, climbs_resetEntry climbs⟩
  intro l mem same
  obtain ⟨_, v, _, _, eq, _⟩ := wf.waiting l (List.mem_cons_of_mem _ mem)
  apply (List.nodup_cons.mp wf.nodup).1
  have : l = -(u : Int) := by omega
  rw [← this]; exact mem

theorem atMostSpec_congr {c c' : CardIncremental_Lazy} {k n v : Nat} {cs : Cnf}
    (solver : t.solver = s.solver) (spec : c.AtMostSpec k s v c' (s.grow n cs)) :
    c.AtMostSpec k t v c' (t.grow n cs) := by
  have grown : (t.grow n cs).solver = (s.grow n cs).solver := by
    simp only [EvalMaxSAT.grow, solver]
  refine ⟨spec.positive, ?_, CardIncremental_Lazy.ready_later spec.ready ?_ ?_, ?_, spec.inputs,
    spec.made, spec.others, ?_, ?_, ?_, ?_, ⟨n, cs, rfl⟩, ?_⟩
  · rw [vars_eq, grown]; exact spec.bound
  · rw [vars_eq, vars_eq, grown]
  · rw [clauses_eq, clauses_eq, grown]; exact List.Subset.refl _
  · intro d mem
    rw [clauses_eq, grown] at mem
    rw [vars_eq, grown]
    exact spec.within d mem
  · rw [vars_eq, solver]; exact spec.origin
  · intro m models
    rw [clauses_eq, grown] at models
    exact spec.upward m models
  · rw [vars_eq, vars_eq, grown, solver]; exact spec.extend.1
  · rw [clauses_eq, clauses_eq, grown, solver]; exact spec.extend.2.1
  · rw [vars_eq, clauses_eq, clauses_eq, grown, solver]; exact spec.extend.2.2.2

section AddCard
variable {clause : Clause} {w : Nat} {rest : List (Clause × Nat)}

def EvalMaxSAT.withPending (s : EvalMaxSAT K) (cores : List (Clause × Nat)) : EvalMaxSAT K :=
  { s with cardToAdd := cores }

theorem owed_pending {r : List (Clause × Nat)} {c : Clause} (γ : Gauge) :
    (s.withPending ((c, w) :: r)).owed γ =
      (s.withPending r).owed γ + w * (falseCount γ c - 1) := by
  simp only [EvalMaxSAT.owed, EvalMaxSAT.withPending, pendingSum, List.map_cons, List.sum_cons]
  omega

theorem wf_pending (wf : Wf ws (s.withPending ((clause, w) :: rest))) :
    Wf ws (s.withPending rest) where
  poidsSize := wf.poidsSize
  entriesSize := wf.entriesSize
  zero := wf.zero
  within := wf.within
  poids_bounded := wf.poids_bounded
  indexed := wf.indexed
  pending := fun p mem => wf.pending p (List.mem_cons_of_mem _ mem)
  cards := fun c o cell => cardOk_transfer (wf.cards c o cell) (Nat.le_refl _)
    (List.Subset.refl _) (fun _ _ _ => ⟨rfl, rfl⟩) (fun _ _ h => h)
  entries := wf.entries
  disjoint := wf.disjoint
  nodup := wf.nodup
  waiting := wf.waiting

theorem addCard_short (short : clause.length ≤ 1) : s.addCard clause w = (none, s) := by
  have none := CardIncremental_Lazy.atMost_none (c := CardIncremental_Lazy.mk' clause 1) (k := 1)
    (s := s) short
  simp only [EvalMaxSAT.addCard, none]
  simp

theorem addCard_eq {n v : Nat} {cs : Cnf} {card : CardIncremental_Lazy}
    (out : (CardIncremental_Lazy.mk' clause 1).atMost 1 s = (-(v : Int), card, s.grow n cs))
    (pos : 0 < v) (range : w < 2 ^ 63) :
    s.addCard clause w = (some (-(v : Int)), (s.grow n cs).install (s.cards ++ [⟨card, w, 1⟩]) v
      ⟨s.cards.length, 1, w⟩) := by
  have word : i64 (w : Int) = w := i64_of_range (by omega) (by omega)
  simp only [EvalMaxSAT.addCard, out]
  rw [if_pos (by omega)]
  simp only [EvalMaxSAT.install, word, Int.natAbs_neg, Int.natAbs_natCast]
  rfl

theorem installs_new {n v : Nat} {cs : Cnf} {card : CardIncremental_Lazy} (wf : Wf ws s)
    (pos : 0 < w) (range : w < 2 ^ 63) (several : 2 ≤ clause.length)
    (within : Within s.solver.nVar clause)
    (spec : (CardIncremental_Lazy.mk' clause 1).AtMostSpec 1 s v card (s.grow n cs)) :
    Installs ws ws (s.grow n cs) (s.cards ++ [⟨card, w, 1⟩]) v ⟨s.cards.length, 1, w⟩
      ⟨card, w, 1⟩ := by
  obtain ⟨_, perm, unmade, _⟩ := CardIncremental_Lazy.mk'_spec (s := s) several within
  have fresh : v = s.solver.nVar + 1 := by
    rcases spec.origin with old | ⟨_, fresh⟩
    · rw [unmade] at old; simp at old
    · exact fresh
  have only : ∀ k x, card.output k = some x → k = 1 ∧ x = (v : Int) := by
    intro k x made
    by_cases first : k = 1
    · subst first
      exact ⟨rfl, (Option.some.inj (spec.made.symm.trans made)).symm⟩
    · rw [spec.others k first, unmade] at made
      simp at made
  have noCell : ∀ u f, s.cardOf u = some f → f.card ≠ s.cards.length := by
    intro u f entry same
    obtain ⟨o, cell, _⟩ := wf.entries u f entry
    have := (List.getElem?_eq_some_iff.mp cell).1
    omega
  refine ⟨spec.positive, spec.bound, by simp, ?_, rfl, rfl, spec.ready,
    Nat.le_refl _, ?_, pos, range, spec.made, ?_, ?_, ?_, ?_, ?_, wf.nodup,
    fun l mem => mem, fun l mem => Or.inl mem, ?_⟩
  · intro d ne
    change (s.cards ++ [_])[d]? = s.cards[d]?
    simp only at ne
    rcases Nat.lt_or_gt_of_ne ne with lt | gt
    · rw [List.getElem?_append_left lt]
    · rw [List.getElem?_eq_none (by simp; omega), List.getElem?_eq_none (by omega)]
  · change 1 < card.inputs.length
    rw [spec.inputs, perm.length_eq]; omega
  · rw [weight_grow]
    by_contra weighted
    have := (wf.weighted_inside weighted).2
    omega
  · intro k x made ne
    exact absurd (only k x made).1 ne
  · intro i j x madeI madeJ
    rw [(only i x madeI).1, (only j x madeJ).1]
  · intro d p i j x _ cell madeP madeO
    have := (wf.output_pos cell madeP).2
    have := (only j x madeO).2
    omega
  · intro u f entry same
    rw [cardOf_grow] at entry
    exact absurd same (noCell u f entry)
  · intro l _ f entry
    rw [cardOf_grow] at entry
    exact noCell _ f entry

theorem climbs_new {n v : Nat} {cs : Cnf} {card : CardIncremental_Lazy} (wf : Wf ws s)
    (several : 2 ≤ clause.length) (within : Within s.solver.nVar clause)
    (spec : (CardIncremental_Lazy.mk' clause 1).AtMostSpec 1 s v card (s.grow n cs))
    (inst : Installs ws ws (s.grow n cs) (s.cards ++ [⟨card, w, 1⟩]) v ⟨s.cards.length, 1, w⟩
      ⟨card, w, 1⟩) (wfGrown : Wf ws (s.grow n cs)) :
    Climbs 1 s ((s.grow n cs).install (s.cards ++ [⟨card, w, 1⟩]) v ⟨s.cards.length, 1, w⟩) := by
  obtain ⟨_, _, unmade, _⟩ := CardIncremental_Lazy.mk'_spec (s := s) several within
  have fresh : v = s.solver.nVar + 1 := by
    rcases spec.origin with old | ⟨_, fresh⟩
    · rw [unmade] at old; simp at old
    · exact fresh
  have weight := weight_install wfGrown inst
  rw [weight_grow] at weight
  refine ⟨Nat.le_add_right _ _, by simp [EvalMaxSAT.install], ?_, ?_⟩
  · intro d p cell
    have inside := (List.getElem?_eq_some_iff.mp cell).1
    obtain ⟨x, made, _⟩ := (wf.cards d p cell).last
    refine ⟨p, (List.getElem?_append_left inside).trans cell, rfl, rfl, fun _ _ h => h,
      fun _ _ h => Or.inl h, Or.inl ⟨rfl, x, made, ?_⟩⟩
    have := wf.output_pos cell made
    rw [weight, reweigh, if_neg (by omega), if_neg (by omega)]
  · intro d p absent cell
    have outside := List.getElem?_eq_none_iff.mp absent
    have here : d = s.cards.length := by
      have : d < (s.cards ++ [(⟨card, w, 1⟩ : CardObject)]).length :=
        (List.getElem?_eq_some_iff.mp cell).1
      simp only [List.length_append, List.length_singleton] at this
      omega
    subst here
    have same : (⟨card, w, 1⟩ : CardObject) = p := Option.some.inj (inst.here.symm.trans cell)
    subst same
    refine ⟨?_, rfl, v, spec.made, by rw [weight, reweigh, if_pos rfl]⟩
    intro k x made
    by_cases first : k = 1
    · subst first
      have : (v : Int) = x := Option.some.inj (spec.made.symm.trans made)
      omega
    · have old : card.output k = _ := spec.others k first
      rw [unmade] at old
      rw [show card.output k = some x from made] at old
      simp at old

theorem sim_addCard {n v : Nat} {cs : Cnf} {card : CardIncremental_Lazy}
    (wf : Wf ws (s.withPending ((clause, w) :: rest))) (several : 2 ≤ clause.length)
    (spec : (CardIncremental_Lazy.mk' clause 1).AtMostSpec 1 (s.withPending rest) v card
      ((s.withPending rest).grow n cs))
    (inst : Installs ws ws ((s.withPending rest).grow n cs) (s.cards ++ [⟨card, w, 1⟩]) v
      ⟨s.cards.length, 1, w⟩ ⟨card, w, 1⟩) :
    Sim (fun _ => 0) (s.withPending ((clause, w) :: rest))
      (((s.withPending rest).grow n cs).install (s.cards ++ [⟨card, w, 1⟩]) v
        ⟨s.cards.length, 1, w⟩) := by
  obtain ⟨_, within, _⟩ := wf.pending (clause, w) (by simp [EvalMaxSAT.withPending])
  obtain ⟨_, perm, unmade, blank⟩ := CardIncremental_Lazy.mk'_spec (s := s) several within
  have wfGrown : Wf ws ((s.withPending rest).grow n cs) :=
    wf_grow (wf_pending wf) (fun c mem => spec.within c (List.mem_append_right _ mem))
  have spec' := atMostSpec_congr (s := s.withPending rest)
    (t := s.withPending ((clause, w) :: rest)) rfl spec
  refine sim_install (n := n) (w := w) (L := 1) (f := fun γ => w * (falseCount γ clause - 1)) wf
    (fun m _ _ => blank m) ?_ ?_ spec' rfl rfl ?_ ?_ ?_
  · intro l mem
    exact (within l (perm.subset mem)).1
  · rw [perm.length_eq]; omega
  · refine ⟨?_, fun o mem => Or.inl (List.mem_append_left _ mem), ⟨⟨card, w, 1⟩, List.mem_append_right _ List.mem_cons_self, rfl⟩,
      Or.inr unmade⟩
    intro o mem
    rcases List.mem_append.mp mem with old | new
    · exact Or.inl old
    · simp at new; subst new; exact Or.inr rfl
  · intro γ
    rw [falseCount_perm perm]
  · intro γ
    have soft := soft_install wfGrown inst γ
    simp only at soft
    have pending := owed_pending (s := s) (c := clause) (w := w) (r := rest) γ
    have grown := owed_grow (s := s.withPending rest) (n := n) (f := cs) γ
    have last : CardObject.charge γ ⟨card, w, 1⟩ = w * (falseCount γ (CardIncremental_Lazy.mk' clause 1).inputs - (1 + 1)) := by
      rw [CardObject.charge, spec.inputs]
    simp only [EvalMaxSAT.owed] at pending grown ⊢
    change softSum γ (((s.withPending rest).grow n cs).install _ v _).poids + pendingSum γ rest +
      cardSum γ (s.cards ++ [⟨card, w, 1⟩]) + _ = _
    rw [soft]
    change softSum γ ((s.withPending rest).grow n cs).poids + pendingSum γ rest +
      cardSum γ s.cards = _ at grown
    have sum : cardSum γ (s.cards ++ [⟨card, w, 1⟩]) =
        cardSum γ s.cards + CardObject.charge γ ⟨card, w, 1⟩ := by
      simp [cardSum]
    omega

theorem addCard_spec {b : List (Clause × Nat)} {a : Clause} (wf : Wf ws (s.withPending ((a, w) :: b))) :
    Wf ws ((s.addCard a w).2.withPending b) ∧
      Sim (fun _ => 0) (s.withPending ((a, w) :: b))
        ((s.addCard a w).2.withPending b) ∧
      Gives (s.addCard a w).1 s (s.addCard a w).2 ∧
      (s.addCard a w).2.outside = s.outside ∧ Climbs 1 s (s.addCard a w).2 := by
  obtain ⟨nonempty, within, pos, range⟩ := wf.pending (a, w) (by simp [EvalMaxSAT.withPending])
  by_cases short : a.length ≤ 1
  · rw [addCard_short short]
    have here : Climbs 0 s s := climbs_congr (climbs_refl wf) rfl rfl rfl rfl rfl rfl
    refine ⟨wf_pending wf, sim_of_owed rfl rfl rfl ?_, rfl, rfl, climbs_mono here (Nat.zero_le _)⟩
    intro γ
    have := falseCount_le γ a
    rw [owed_pending, show falseCount γ a - 1 = 0 by omega]
    rfl
  · have several : 2 ≤ a.length := by omega
    have wf' := wf_pending wf
    obtain ⟨ready, perm, unmade, _⟩ := CardIncremental_Lazy.mk'_spec (s := s) several within
    obtain ⟨v, literal, spec⟩ := CardIncremental_Lazy.atMost_spec (k := 1) ready
      (s := s) wf'.within (by rw [ready.maxVars, perm.length_eq]; omega)
    obtain ⟨n, cs, grown⟩ := spec.extend.2.2.1
    generalize out : (CardIncremental_Lazy.mk' a 1).atMost 1 s = r at literal spec grown
    obtain ⟨x, card, s'⟩ := r
    simp only at literal spec grown
    subst literal; subst grown
    have spec' := atMostSpec_congr (s := s) (t := s.withPending b) rfl spec
    have wfGrown : Wf ws ((s.withPending b).grow n cs) :=
      wf_grow wf' (fun c mem => spec.within c (List.mem_append_right _ mem))
    have inst := installs_new wf' pos range several within spec'
    have sim := sim_addCard wf several spec' inst
    rw [addCard_eq out spec.positive range]
    have climbs := climbs_congr (u := s) (v := (s.grow n cs).install (s.cards ++ [⟨card, w, 1⟩]) v
      ⟨s.cards.length, 1, w⟩) (climbs_new wf' several within spec' inst wfGrown) rfl rfl rfl rfl rfl rfl
    refine ⟨wf_install wfGrown inst, sim, ?_, rfl, climbs⟩
    · have positive := spec.positive
      have unweighted := inst.unweighted
      rw [weight_grow] at unweighted
      refine ⟨?_, by omega, ?_, w, by omega, by omega, ?_⟩
      · have : s.weight (-(v : Int)) = -s.weight (v : Int) := wf'.weight_neg v
        have : s.weight (v : Int) = 0 := unweighted
        omega
      · rw [Int.natAbs_neg, Int.natAbs_natCast]
        exact fun plain => plain s.cards.length _ 1 inst.here spec.made
      · have := weight_install wfGrown inst
        rw [weight_grow] at this
        exact this

end AddCard
end EvalMaxSat
