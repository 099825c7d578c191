import EvalMaxSat.Climbing

/-!
The levels of a cardinality: a core becomes a totalizer whose first level has weight, and
a level without weight hands over to the next one.
-/
namespace EvalMaxSat
open Literals OrderedContainers LawfulSink

variable {K : Type} {ws ks : List Int} {s t : EvalMaxSAT K}

/-- `s` where variable `v` is made the soft output that `e` describes. -/
def EvalMaxSAT.install (s : EvalMaxSAT K) (cards : List CardObject) (v : Nat) (e : LitCard) :
    EvalMaxSAT K :=
  { s with
    cards := cards
    mapAssum2Card := s.mapAssum2Card.set v (some e)
    poids := s.poids.set (-(v : Int)) e.initialWeight
    mapWeight2Assum := s.mapWeight2Assum.insertLit e.initialWeight (-(v : Int)) }

/-- When `v` may become the current level of the cardinality `o` in cell `e.card`. -/
structure Installs (ks ws : List Int) (s : EvalMaxSAT K) (cards : List CardObject) (v : Nat)
    (e : LitCard) (o : CardObject) : Prop where
  positive : 0 < v
  bound : v ≤ s.solver.nVar
  here : cards[e.card]? = some o
  there : ∀ d, d ≠ e.card → cards[d]? = s.cards[d]?
  atLevel : e.atMost = o.level
  sameWeight : e.initialWeight = o.initialWeight
  ready : o.card.Ready s
  level_pos : 1 ≤ o.level
  level_lt : o.level < o.card.inputs.length
  weight_pos : 0 < o.initialWeight
  weight_lt : o.initialWeight < 2 ^ 63
  made : o.card.output o.level = some (v : Int)
  unweighted : s.weight v = 0
  idle : ∀ k x, o.card.output k = some x → k ≠ o.level → s.weight x = 0
  injective : ∀ i j x, o.card.output i = some x → o.card.output j = some x → i = j
  separate : ∀ (d : Nat) p i j x, d ≠ e.card → s.cards[d]? = some p → p.card.output i = some x →
    o.card.output j ≠ some x
  entries : ∀ u f, s.cardOf u = some f → f.card = e.card →
    f.atMost ≤ o.level ∧ f.initialWeight = o.initialWeight ∧
      o.card.output f.atMost = some (u : Int)
  nodup : ws.Nodup
  sub : ws ⊆ ks
  keep : ∀ l ∈ ks, l ∈ ws ∨ ∃ f, s.cardOf l.natAbs = some f ∧ f.card = e.card
  away : ∀ l ∈ ws, ∀ f, s.cardOf l.natAbs = some f → f.card ≠ e.card

section Install
variable {cards : List CardObject} {v : Nat} {e : LitCard} {o : CardObject}

theorem weight_install (wf : Wf ks s) (h : Installs ks ws s cards v e o) :
    (s.install cards v e).weight = reweigh s.weight (-(v : Int)) e.initialWeight := by
  have pos := h.positive
  have lt := h.weight_lt
  have same := h.sameWeight
  exact weight_put (m := s.mapWeight2Assum) wf (by omega) (by omega)
    (by rw [Int.natAbs_neg]; exact h.bound)

theorem cardOf_install (wf : Wf ks s) (h : Installs ks ws s cards v e o) (u : Nat) :
    (s.install cards v e).cardOf u = if u = v then some e else s.cardOf u := by
  have inside : v < s.mapAssum2Card.length := by rw [wf.entriesSize]; have := h.bound; omega
  simp only [EvalMaxSAT.cardOf, EvalMaxSAT.install, List.getD_eq_getElem?_getD]
  by_cases same : u = v
  · subst same; rw [List.getElem?_set_self inside, if_pos rfl]; rfl
  · rw [List.getElem?_set_ne (Ne.symm same), if_neg same]

theorem soft_install (wf : Wf ks s) (h : Installs ks ws s cards v e o) (γ : Gauge) :
    softSum γ (s.install cards v e).poids =
      softSum γ s.poids + if γ (-(v : Int)) then o.initialWeight else 0 := by
  have pos := h.positive
  have lt := h.weight_lt
  have same := h.sameWeight
  have set := WeightVector.softSum_set (k := -(v : Int)) (w := e.initialWeight)
    wf.poids_bounded γ (by omega) (wf.inside (by rw [Int.natAbs_neg]; exact h.bound)) (by omega)
  have before : s.poids.get (-(v : Int)) = 0 := by
    have := wf.weight_neg v
    rw [h.unweighted] at this
    exact this
  rw [before, charge_zero, charge_pos (by omega)] at set
  simp only [EvalMaxSAT.install]
  rw [← same]
  simpa using set

theorem weight_other (wf : Wf ks s) (h : Installs ks ws s cards v e o) {l : Int} (ne : l.natAbs ≠ v) :
    (s.install cards v e).weight l = s.weight l := by
  rw [weight_install wf h, reweigh, if_neg (by rintro rfl; omega), if_neg (by rintro rfl; omega)]

theorem weight_self (wf : Wf ks s) (h : Installs ks ws s cards v e o) :
    (s.install cards v e).weight (v : Int) = -(o.initialWeight : Int) := by
  have pos := h.positive
  rw [weight_install wf h, reweigh, if_neg (by omega), if_pos (by omega), h.sameWeight]

theorem output_other (wf : Wf ks s) (h : Installs ks ws s cards v e o) {d k : Nat} {p : CardObject}
    {x : Int} (ne : d ≠ e.card) (cell : s.cards[d]? = some p) (made : p.card.output k = some x) :
    x.natAbs ≠ v := by
  intro eq
  have := (wf.output_pos cell made).1
  apply h.separate d p k o.level x ne cell made
  rw [h.made]; congr 1; omega

theorem indexed_install (wf : Wf ks s) (h : Installs ks ws s cards v e o) :
    Indexes (s.install cards v e).mapWeight2Assum (s.install cards v e).weight := by
  have pos := h.positive
  have lt := h.weight_lt
  have positiveWeight := h.weight_pos
  have same := h.sameWeight
  have word : u64 (e.initialWeight : Int) = e.initialWeight := u64_of_nat (by omega)
  have index := indexes_insert (k := -(v : Int)) (x := e.initialWeight) wf.indexed
    (wf.weight_neg _) (by omega) (by rw [wf.weight_neg, h.unweighted]; rfl) (by omega)
    (by omega)
  rw [word] at index
  rw [weight_install wf h]
  exact index

theorem cardOk_installed (wf : Wf ks s) (h : Installs ks ws s cards v e o) :
    CardOk (s.install cards v e) ws e.card o := by
  have pos := h.positive
  have positiveWeight := h.weight_pos
  have self := weight_self wf h
  refine ⟨CardIncremental_Lazy.ready_later h.ready (Nat.le_refl _) (List.Subset.refl _),
    h.level_pos, h.level_lt, h.weight_pos, h.weight_lt, ?_, ⟨v, h.made, Or.inl (by rw [self]; omega)⟩⟩
  intro k x made
  by_cases current : k = o.level
  · subst current
    have : (v : Int) = x := Option.some.inj (h.made.symm.trans made)
    subst this
    refine ⟨by rw [self]; omega, fun _ => ⟨rfl, ?_⟩⟩
    rw [cardOf_install wf h, if_pos (by simp), ← h.atLevel, ← h.sameWeight]
  · have ne : x.natAbs ≠ v := by
      intro eq
      have xpos := (TotTree.output_bound h.ready.tree h.ready.several made).1
      have : x = (v : Int) := by omega
      subst this
      exact current (h.injective _ _ _ made h.made)
    rw [weight_other wf h ne, h.idle k x made current]
    exact ⟨Int.le_refl _, fun weighted => absurd rfl weighted⟩

theorem cardOk_kept (wf : Wf ks s) (h : Installs ks ws s cards v e o) {d : Nat} {p : CardObject}
    (ne : d ≠ e.card) (cell : s.cards[d]? = some p) : CardOk (s.install cards v e) ws d p := by
  refine cardOk_transfer (wf.cards d p cell) (Nat.le_refl _) (List.Subset.refl _) ?_ ?_
  · intro k x made
    have apart := output_other wf h ne cell made
    exact ⟨weight_other wf h apart, by rw [cardOf_install wf h, if_neg apart]⟩
  · intro x made waits
    rcases h.keep _ waits with still | ⟨f, entry, cellF⟩
    · exact still
    · rw [Int.natAbs_neg] at entry
      have xpos := (wf.output_pos cell made).1
      have outs := (h.entries _ f entry cellF).2.2
      have : ((x.natAbs : Nat) : Int) = x := by omega
      rw [this] at outs
      exact absurd outs (h.separate d p _ _ x ne cell made)

theorem entries_install (wf : Wf ks s) (h : Installs ks ws s cards v e o) {u : Nat} {f : LitCard}
    (entry : (s.install cards v e).cardOf u = some f) : EntryOk (s.install cards v e) u f := by
  rw [cardOf_install wf h] at entry
  split at entry
  · rename_i eq
    subst eq
    have : e = f := Option.some.inj entry
    subst this
    exact ⟨o, h.here, Nat.le_of_eq h.atLevel, h.sameWeight, by rw [h.atLevel]; exact h.made⟩
  · by_cases mine : f.card = e.card
    · obtain ⟨le, weightEq, made⟩ := h.entries u f entry mine
      exact ⟨o, by rw [mine]; exact h.here, le, weightEq, made⟩
    · obtain ⟨p, cell, rest⟩ := wf.entries u f entry
      exact ⟨p, (h.there _ mine).trans cell, rest⟩

theorem disjoint_install (wf : Wf ks s) (h : Installs ks ws s cards v e o) {c d i j : Nat}
    {p q : CardObject} {x : Int} (cellP : cards[c]? = some p) (cellQ : cards[d]? = some q)
    (madeP : p.card.output i = some x) (madeQ : q.card.output j = some x) : c = d ∧ i = j := by
  by_cases mineC : c = e.card
  · subst mineC
    have : o = p := Option.some.inj (h.here.symm.trans cellP)
    subst this
    by_cases mineD : d = e.card
    · subst mineD
      have : o = q := Option.some.inj (h.here.symm.trans cellQ)
      subst this
      exact ⟨rfl, h.injective _ _ _ madeP madeQ⟩
    · rw [h.there d mineD] at cellQ
      exact absurd madeP (h.separate d q _ _ x mineD cellQ madeQ)
  · rw [h.there c mineC] at cellP
    by_cases mineD : d = e.card
    · subst mineD
      have : o = q := Option.some.inj (h.here.symm.trans cellQ)
      subst this
      exact absurd madeQ (h.separate c p _ _ x mineC cellP madeP)
    · rw [h.there d mineD] at cellQ
      exact wf.disjoint c d p q i j x cellP cellQ madeP madeQ

theorem waiting_install (wf : Wf ks s) (h : Installs ks ws s cards v e o) {l : Int} (mem : l ∈ ws) :
    (s.install cards v e).Waiting l := by
  obtain ⟨unweighted, u, f, p, eq, entry, cell, level⟩ := wf.waiting l (h.sub mem)
  have var : l.natAbs = u := by omega
  have mine := h.away l mem f (by rw [var]; exact entry)
  obtain ⟨q, cellQ, _, _, madeQ⟩ := wf.entries u f entry
  have : p = q := Option.some.inj (cell.symm.trans cellQ)
  subst this
  have ne := output_other wf h mine cell madeQ
  rw [Int.natAbs_natCast] at ne
  refine ⟨by rw [weight_other wf h (by omega)]; exact unweighted, u, f, p, eq, ?_,
    (h.there _ mine).trans cell, level⟩
  rw [cardOf_install wf h, if_neg ne]; exact entry

theorem wf_install (wf : Wf ks s) (h : Installs ks ws s cards v e o) :
    Wf ws (s.install cards v e) := by
  have pos := h.positive
  have lt := h.weight_lt
  have same := h.sameWeight
  have bounded : (s.install cards v e).poids.Bounded :=
    WeightVector.bounded_set wf.poids_bounded (by omega)
      (wf.inside (by rw [Int.natAbs_neg]; exact h.bound))
  refine ⟨?_, ?_, ?_, wf.within, bounded, indexed_install wf h, wf.pending, ?_,
    fun u f entry => entries_install wf h entry, ?_, h.nodup, fun l mem => waiting_install wf h mem⟩
  · simp only [EvalMaxSAT.install, WeightVector.size_set]; exact wf.poidsSize
  · simp only [EvalMaxSAT.install, List.length_set]; exact wf.entriesSize
  · rw [weight_other wf h (by simp; omega)]; exact wf.zero
  · intro d p cell
    by_cases mine : d = e.card
    · subst mine
      have : o = p := Option.some.inj (h.here.symm.trans cell)
      subst this
      exact cardOk_installed wf h
    · exact cardOk_kept wf h mine ((h.there d mine).symm.trans cell)
  · intro c d p q i j x cellP cellQ
    exact disjoint_install wf h cellP cellQ

end Install

theorem cardSum_set {γ : Gauge} {cards : List CardObject} {c : Nat} {o a : CardObject}
    (cell : cards[c]? = some o) :
    cardSum γ (cards.set c a) + o.charge γ = cardSum γ cards + a.charge γ := by
  induction cards generalizing c with
  | nil => simp at cell
  | cons p ps ih =>
    cases c with
    | zero =>
      have : p = o := by simpa using cell
      subst this
      simp only [cardSum, List.set_cons_zero, List.map_cons, List.sum_cons]; omega
    | succ c =>
      have := ih (c := c) (by simpa using cell)
      simp only [cardSum, List.set_cons_succ, List.map_cons, List.sum_cons] at this ⊢
      omega

theorem level_step (w f L : Nat) :
    w * (f - L) = w * (f - (L + 1)) + if L + 1 ≤ f then w else 0 := by
  split
  · have : f - L = (f - (L + 1)) + 1 := by omega
    rw [this, Nat.mul_succ]
  · have : f - L = f - (L + 1) := by omega
    rw [← this, Nat.add_zero]

theorem inputs_nonzero {c : CardIncremental_Lazy} (ready : c.Ready s) :
    ∀ l ∈ c.inputs, l ≠ 0 := fun l mem => (ready.tree.varsUpTo.1 l mem).1

/-- The cards where `c'` stands for `c`, or is new. -/
structure Replaces (s : EvalMaxSAT K) (cards : List CardObject) (c c' : CardIncremental_Lazy) :
    Prop where
  members : ∀ o ∈ cards, o ∈ s.cards ∨ o.card = c'
  survive : ∀ o ∈ s.cards, o ∈ cards ∨ o.card = c
  present : ∃ o ∈ cards, o.card = c'
  known : (∃ o ∈ s.cards, o.card = c) ∨ ∀ k, c.output k = none

theorem plain_iff {v : Nat} :
    s.Plain v ↔ ∀ o ∈ s.cards, ∀ k, o.card.output k ≠ some (v : Int) := by
  constructor
  · intro plain o mem k
    obtain ⟨i, cell⟩ := List.getElem?_of_mem mem
    exact plain i o k cell
  · intro all i o k cell
    exact all o (List.mem_of_getElem? cell) k

theorem plain_replace {c c' : CardIncremental_Lazy} {n v L : Nat} {cs : Cnf} {u : EvalMaxSAT K}
    (spec : c.AtMostSpec L s v c' (s.grow n cs)) (replaces : Replaces s u.cards c c') {x : Nat}
    (bound : x ≤ s.solver.nVar) : u.Plain x ↔ s.Plain x := by
  rw [plain_iff, plain_iff]
  constructor
  · intro plain o mem k made
    rcases replaces.survive o mem with kept | same
    · exact plain o kept k made
    · obtain ⟨p, present, eq⟩ := replaces.present
      apply plain p present k
      rw [same] at made
      rw [eq]
      by_cases current : k = L
      · subst current
        rcases spec.origin with old | ⟨unmade, _⟩
        · rw [spec.made, ← old, made]
        · rw [unmade] at made; simp at made
      · rw [spec.others k current, made]
  · intro plain o mem k made
    rcases replaces.members o mem with old | same
    · exact plain o old k made
    · rw [same] at made
      have before : c.output k = some (x : Int) := by
        by_cases current : k = L
        · subst current
          have eq : v = x := by have := spec.made.symm.trans made; simpa using this
          rcases spec.origin with old | ⟨_, fresh⟩
          · rw [old, eq]
          · simp only [vars_eq] at fresh; omega
        · rw [← spec.others k current, made]
      rcases replaces.known with ⟨p, mem, eq⟩ | none
      · exact plain p mem k (by rw [eq]; exact before)
      · rw [none k] at before; simp at before

/-- One more level of a cardinality, or its first, in place of what stood for it before. -/
theorem sim_install {c c' : CardIncremental_Lazy} {cards : List CardObject} {n v w L : Nat}
    {cs : Cnf} {f : Gauge → Nat} {u : EvalMaxSAT K} (wf : Wf ks s)
    (exact_c : ∀ m, Models m s.solver.clauses → s.Canonical m → c.tree.Exact m)
    (nonzero : ∀ l ∈ c.inputs, l ≠ 0) (lt : L < c.inputs.length)
    (spec : c.AtMostSpec L s v c' (s.grow n cs)) (vars : u.solver = (s.grow n cs).solver)
    (cells : u.cards = cards) (replaces : Replaces s cards c c')
    (before_eq : ∀ γ, f γ = w * (falseCount γ c.inputs - L))
    (balance : ∀ γ, u.owed γ + f γ = s.owed γ + (if γ (-(v : Int)) then w else 0) +
      w * (falseCount γ c.inputs - (L + 1))) : Sim (fun _ => 0) s u := by
  have value : ∀ m : Assignment, falsified m (-(v : Int)) = m v := by
    intro m
    have := spec.positive
    rw [falsified, litTrue_neg (by omega), Bool.not_not, litTrue_natCast this]
  refine ⟨by rw [vars]; exact Nat.le_add_right _ _,
    by rw [vars]; exact List.subset_append_left _ _,
    fun x bound => plain_replace spec (by rw [cells]; exact replaces) bound, ?_, ?_, ?_⟩
  · have := balance everyLit
    rw [before_eq, level_step w _ L, falseCount_every, if_pos (by omega)] at this
    simp only [everyLit, if_true] at this
    simp only [EvalMaxSAT.potential]
    omega
  · intro m models canonical _
    obtain ⟨k, agree, models', exact', counts⟩ :=
      spec.extend.2.2.2 m models (exact_c m models canonical)
    refine ⟨k, agree, by rw [vars]; exact models', ?_, ?_⟩
    · intro o mem
      rw [cells] at mem
      rcases replaces.members o mem with old | new
      · exact canonical_agree wf agree canonical o old
      · rw [new]; exact exact'
    · have := balance (falsified k)
      rw [before_eq, level_step w _ L, falseCount_model nonzero, value, counts,
        owed_agree wf agree] at this
      simp only [decide_eq_true_eq] at this
      omega
  · intro m models
    have := balance (falsified m)
    rw [before_eq, level_step w _ L, falseCount_model nonzero, value] at this
    by_cases enough : L + 1 ≤ trueCount m c.inputs
    · rw [if_pos enough, spec.upward m (by rw [vars] at models; exact models) enough, if_pos rfl] at this
      omega
    · rw [if_neg enough] at this
      omega

/-- What a call that may have given weight to one literal, the one it returns, does to the
weights. -/
def Gives (new : Option Int) (s t : EvalMaxSAT K) : Prop :=
  match new with
  | none => t.weight = s.weight
  | some l => s.weight l = 0 ∧ l ≠ 0 ∧ ¬ t.Plain l.natAbs ∧
      ∃ x : Int, 0 < x ∧ x < 2 ^ 63 ∧ t.weight = reweigh s.weight l x

/-- The queues and the settings. -/
def EvalMaxSAT.besides (s : EvalMaxSAT K) := (s.litToRelax, s.cardToAdd, s.aside)

/-- What neither the totalizers nor the weights are part of. -/
def EvalMaxSAT.outside (s : EvalMaxSAT K) := (s.cost, s.besides)

section Raise
variable {e : LitCard} {o : CardObject}

/-- `s` where the cardinality of `e` has moved on to the output `v`. -/
def EvalMaxSAT.raise (s : EvalMaxSAT K) (n : Nat) (cs : Cnf) (e : LitCard) (o : CardObject)
    (v : Nat) (card : CardIncremental_Lazy) : EvalMaxSAT K :=
  (s.grow n cs).install (s.cards.set e.card ⟨card, o.initialWeight, o.level + 1⟩) v
    ⟨e.card, o.level + 1, o.initialWeight⟩

/-- The literal at the head of those that wait belongs to the current level of `o`. -/
structure Heads (s : EvalMaxSAT K) (ws : List Int) (u : Nat) (e : LitCard) (o : CardObject) :
    Prop where
  wf : Wf (-(u : Int) :: ws) s
  entry : s.cardOf u = some e
  cell : s.cards[e.card]? = some o
  atLevel : e.atMost = o.level

theorem heads_of_wf {lit : Int} (wf : Wf (lit :: ws) s) :
    ∃ (u : Nat) (e : LitCard) (o : CardObject), lit = -(u : Int) ∧ Heads s ws u e o := by
  obtain ⟨_, u, e, o, eq, entry, cell, level⟩ := wf.waiting lit (by simp)
  subst eq
  exact ⟨u, e, o, rfl, wf, entry, cell, level⟩

namespace Heads
variable {u n v : Nat} {cs : Cnf} {card : CardIncremental_Lazy}

theorem entry_eq (h : Heads s ws u e o) :
    e = ⟨e.card, o.level, o.initialWeight⟩ ∧ o.card.output o.level = some (u : Int) := by
  obtain ⟨p, cell, _, weight, made⟩ := h.wf.entries u e h.entry
  have : o = p := Option.some.inj (h.cell.symm.trans cell)
  subst this
  rw [h.atLevel] at made
  refine ⟨?_, made⟩
  have level := h.atLevel
  cases e
  simp only at level weight
  subst level; subst weight
  rfl

theorem unweighted (h : Heads s ws u e o) : s.weight (u : Int) = 0 := by
  have := (h.wf.waiting (-(u : Int)) (by simp)).1
  have := h.wf.weight_neg u
  omega

theorem next_free (h : Heads s ws u e o)
    (spec : o.card.AtMostSpec (o.level + 1) s v card (s.grow n cs)) :
    s.weight (v : Int) = 0 ∧ s.cardOf v = none ∧
      ∀ (d : Nat) p k, d ≠ e.card → s.cards[d]? = some p → p.card.output k ≠ some (v : Int) := by
  have ok := h.wf.cards _ _ h.cell
  rcases spec.origin with old | ⟨_, fresh⟩
  · refine ⟨?_, ?_, ?_⟩
    · by_contra weighted
      have := ((ok.outputs _ _ old).2 weighted).1
      omega
    · cases entry : s.cardOf v with
      | none => rfl
      | some f =>
        obtain ⟨p, cell, le, _, made⟩ := h.wf.entries v f entry
        obtain ⟨same, index⟩ := h.wf.disjoint _ _ _ _ _ _ _ cell h.cell made old
        rw [same] at cell
        have : o = p := Option.some.inj (h.cell.symm.trans cell)
        subst this
        omega
    · intro d p k ne cell made
      exact ne (h.wf.disjoint _ _ _ _ _ _ _ cell h.cell made old).1
  · simp only [vars_eq] at fresh
    refine ⟨?_, ?_, ?_⟩
    · by_contra weighted
      have := (h.wf.weighted_inside weighted).2
      omega
    · simp only [EvalMaxSAT.cardOf]
      rw [List.getD_eq_default _ _ (by rw [h.wf.entriesSize]; omega)]
    · intro d p k _ cell made
      have := (h.wf.output_pos cell made).2
      omega

theorem output_after (spec : o.card.AtMostSpec (o.level + 1) s v card (s.grow n cs)) :
    ∀ k x, card.output k = some x → o.card.output k = some x ∨ (k = o.level + 1 ∧ x = (v : Int)) := by
  intro k x made
  by_cases current : k = o.level + 1
  · subst current
    exact Or.inr ⟨rfl, (Option.some.inj (spec.made.symm.trans made)).symm⟩
  · rw [spec.others k current] at made
    exact Or.inl made

theorem output_again (h : Heads s ws u e o)
    (spec : o.card.AtMostSpec (o.level + 1) s v card (s.grow n cs)) :
    ∀ k, o.card.output k = some (v : Int) → k = o.level + 1 := by
  intro k made
  rcases spec.origin with old | ⟨_, fresh⟩
  · exact (h.wf.disjoint _ _ _ _ _ _ _ h.cell h.cell made old).2
  · simp only [vars_eq] at fresh
    have := (h.wf.output_pos h.cell made).2
    omega

theorem output_apart (h : Heads s ws u e o)
    (spec : o.card.AtMostSpec (o.level + 1) s v card (s.grow n cs)) :
    ∀ i j x, card.output i = some x → card.output j = some x → i = j := by
  intro i j x madeI madeJ
  rcases output_after spec i x madeI with oldI | ⟨eqI, xI⟩
  · rcases output_after spec j x madeJ with oldJ | ⟨eqJ, xJ⟩
    · exact (h.wf.disjoint _ _ _ _ _ _ _ h.cell h.cell oldI oldJ).2
    · subst xJ; rw [eqJ]; exact h.output_again spec i oldI
  · rcases output_after spec j x madeJ with oldJ | ⟨eqJ, xJ⟩
    · subst xI; rw [eqI]; exact (h.output_again spec j oldJ).symm
    · rw [eqI, eqJ]

/-- No other literal waits for the same cardinality. -/
theorem waits_apart (h : Heads s ws u e o) {l : Int} (mem : l ∈ ws) {f : LitCard}
    (entry : s.cardOf l.natAbs = some f) : f.card ≠ e.card := by
  intro same
  obtain ⟨_, w, g, p, eq, entryG, cellG, level⟩ := h.wf.waiting l (List.mem_cons_of_mem _ mem)
  have var : l.natAbs = w := by omega
  rw [var, entryG] at entry
  have : g = f := Option.some.inj entry
  subst this
  rw [same] at cellG
  have : o = p := Option.some.inj (h.cell.symm.trans cellG)
  subst this
  obtain ⟨q, cellQ, _, _, madeQ⟩ := h.wf.entries w g entryG
  rw [same] at cellQ
  have : o = q := Option.some.inj (h.cell.symm.trans cellQ)
  subst this
  rw [level] at madeQ
  have : (u : Int) = w := Option.some.inj (h.entry_eq.2.symm.trans madeQ)
  apply (List.nodup_cons.mp h.wf.nodup).1
  rw [this, ← eq]; exact mem

theorem installs (h : Heads s ws u e o) (lt : o.level + 1 < o.card.inputs.length)
    (spec : o.card.AtMostSpec (o.level + 1) s v card (s.grow n cs)) :
    Installs (-(u : Int) :: ws) ws (s.grow n cs)
      (s.cards.set e.card ⟨card, o.initialWeight, o.level + 1⟩) v
      ⟨e.card, o.level + 1, o.initialWeight⟩ ⟨card, o.initialWeight, o.level + 1⟩ := by
  have ok := h.wf.cards _ _ h.cell
  obtain ⟨unweighted, unentered, apart⟩ := h.next_free spec
  have inside : e.card < s.cards.length := (List.getElem?_eq_some_iff.mp h.cell).1
  have weight_lt := ok.weight_lt
  refine ⟨spec.positive, spec.bound, List.getElem?_set_self inside, ?_, rfl, rfl, spec.ready,
    Nat.succ_pos _, by rw [spec.inputs]; exact lt, ok.weight_pos, weight_lt, spec.made,
    by rw [weight_grow]; exact unweighted, ?_, ?_, ?_, ?_, (List.nodup_cons.mp h.wf.nodup).2,
    fun l mem => List.mem_cons_of_mem _ mem, ?_, ?_⟩
  · intro d ne
    exact List.getElem?_set_ne (Ne.symm ne)
  · intro k x made ne
    rw [weight_grow]
    rcases output_after spec k x made with old | ⟨current, _⟩
    · by_contra weighted
      have atLevel := ((ok.outputs k x old).2 weighted).1
      subst atLevel
      have : (u : Int) = x := Option.some.inj (h.entry_eq.2.symm.trans old)
      subst this
      exact weighted h.unweighted
    · exact absurd current ne
  · exact h.output_apart spec
  · intro d p i j x ne cell madeP madeO
    rcases output_after spec j x madeO with old | ⟨_, eq⟩
    · exact ne (h.wf.disjoint _ _ _ _ _ _ _ cell h.cell madeP old).1
    · subst eq; exact apart d p i ne cell madeP
  · intro w f entry same
    rw [cardOf_grow] at entry
    obtain ⟨p, cell, le, weight, made⟩ := h.wf.entries w f entry
    change f.card = e.card at same
    rw [same] at cell
    have : o = p := Option.some.inj (h.cell.symm.trans cell)
    subst this
    refine ⟨Nat.le_succ_of_le le, weight, ?_⟩
    change card.output f.atMost = _
    rw [spec.others _ (by omega)]; exact made
  · intro l mem
    rcases List.mem_cons.mp mem with same | mem
    · subst same
      exact Or.inr ⟨e, by rw [cardOf_grow, Int.natAbs_neg, Int.natAbs_natCast]; exact h.entry, rfl⟩
    · exact Or.inl mem
  · intro l mem f entry same
    rw [cardOf_grow] at entry
    exact h.waits_apart mem entry same

theorem replaces (h : Heads s ws u e o) {L : Nat} : Replaces s
    (s.cards.set e.card ⟨card, o.initialWeight, L⟩) o.card card where
  members := by
    intro p mem
    rcases List.mem_or_eq_of_mem_set mem with old | new
    · exact Or.inl old
    · subst new; exact Or.inr rfl
  survive := by
    intro p mem
    obtain ⟨i, cell⟩ := List.getElem?_of_mem mem
    by_cases here : i = e.card
    · subst here
      rw [Option.some.inj (cell.symm.trans h.cell)]
      exact Or.inr rfl
    · left
      apply List.mem_of_getElem? (i := i)
      rw [List.getElem?_set_ne (Ne.symm here), cell]
  present := ⟨⟨card, o.initialWeight, L⟩,
    List.mem_set (List.getElem?_eq_some_iff.mp h.cell).1 _, rfl⟩
  known := Or.inl ⟨o, List.mem_of_getElem? h.cell, rfl⟩

theorem raise_climbs (h : Heads s ws u e o) (lt : o.level + 1 < o.card.inputs.length)
    (spec : o.card.AtMostSpec (o.level + 1) s v card (s.grow n cs)) :
    Climbs 0 s (s.raise n cs e o v card) := by
  have wfGrown : Wf (-(u : Int) :: ws) (s.grow n cs) :=
    wf_grow h.wf (fun c mem => spec.within c (List.mem_append_right _ mem))
  have inst := h.installs lt spec
  have weight : (s.raise n cs e o v card).weight = reweigh s.weight (-(v : Int)) o.initialWeight := by
    have := weight_install wfGrown inst
    rwa [weight_grow] at this
  have pos := spec.positive
  refine ⟨Nat.le_add_right _ _, by simp [EvalMaxSAT.raise, EvalMaxSAT.install], ?_, ?_⟩
  · intro d p cell
    by_cases mine : d = e.card
    · subst mine
      have : o = p := Option.some.inj (h.cell.symm.trans cell)
      subst this
      refine ⟨_, inst.here, rfl, spec.inputs, ?_, ?_, Or.inr ⟨rfl, v, spec.made, ?_⟩⟩
      · intro k x made
        by_cases current : k = o.level + 1
        · subst current
          rcases spec.origin with old | ⟨unmade, _⟩
          · rw [← made, old]; exact spec.made
          · rw [unmade] at made; simp at made
        · exact (spec.others k current).trans made
      · intro k x made
        by_cases current : k = o.level + 1
        · subst current
          have : (v : Int) = x := Option.some.inj (spec.made.symm.trans made)
          subst this
          rcases spec.origin with old | ⟨_, fresh⟩
          · exact Or.inl old
          · right; simp only [vars_eq] at fresh; omega
        · exact Or.inl ((spec.others k current).symm.trans made)
      · rw [weight, reweigh, if_pos rfl]
    · obtain ⟨x, made, _⟩ := (h.wf.cards d p cell).last
      refine ⟨p, (inst.there d mine).trans cell, rfl, rfl, fun _ _ h => h, fun _ _ h => Or.inl h,
        Or.inl ⟨rfl, x, made, ?_⟩⟩
      have ne : x ≠ (v : Int) := by
        rintro rfl
        exact inst.separate d p _ _ _ mine cell made spec.made
      have xpos := (h.wf.output_pos cell made).1
      rw [weight, reweigh, if_neg (by omega), if_neg (by omega)]
  · intro d p absent cell
    have inside : d < (s.raise n cs e o v card).cards.length := (List.getElem?_eq_some_iff.mp cell).1
    have outside := List.getElem?_eq_none_iff.mp absent
    simp only [EvalMaxSAT.raise, EvalMaxSAT.install, List.length_set] at inside
    omega

theorem raise_spec (h : Heads s ws u e o) (lt : o.level + 1 < o.card.inputs.length)
    (spec : o.card.AtMostSpec (o.level + 1) s v card (s.grow n cs)) :
    Wf ws (s.raise n cs e o v card) ∧ Sim (fun _ => 0) s (s.raise n cs e o v card) ∧
      Gives (some (-(v : Int))) s (s.raise n cs e o v card) ∧
      Climbs 0 s (s.raise n cs e o v card) := by
  have ok := h.wf.cards _ _ h.cell
  have wfGrown : Wf (-(u : Int) :: ws) (s.grow n cs) :=
    wf_grow h.wf (fun c mem => spec.within c (List.mem_append_right _ mem))
  have inst := h.installs lt spec
  have sim : Sim (fun _ => 0) s (s.raise n cs e o v card) := by
    refine sim_install (f := o.charge) h.wf
      (fun m _ canonical => canonical o (List.mem_of_getElem? h.cell)) (inputs_nonzero ok.ready)
      lt spec rfl rfl h.replaces (fun γ => rfl) ?_
    · intro γ
      have soft := soft_install wfGrown inst γ
      simp only at soft
      have sum := cardSum_set (γ := γ) (a := ⟨card, o.initialWeight, o.level + 1⟩) h.cell
      have next : CardObject.charge γ ⟨card, o.initialWeight, o.level + 1⟩ =
          o.initialWeight * (falseCount γ o.card.inputs - (o.level + 1 + 1)) := by
        rw [CardObject.charge, spec.inputs]
      rw [next] at sum
      have base := owed_grow (s := s) (n := n) (f := cs) γ
      simp only [EvalMaxSAT.owed] at base ⊢
      change softSum γ ((s.grow n cs).install _ v _).poids + pendingSum γ s.cardToAdd +
        cardSum γ (s.cards.set e.card ⟨card, o.initialWeight, o.level + 1⟩) + _ = _
      rw [soft]
      change softSum γ (s.grow n cs).poids + pendingSum γ s.cardToAdd + cardSum γ s.cards = _ at base
      omega
  refine ⟨wf_install wfGrown inst, sim, ?_, h.raise_climbs lt spec⟩
  have pos := spec.positive
  have weightPos := ok.weight_pos
  have weightLt := inst.weight_lt
  have free := (h.next_free spec).1
  have output : ¬ (s.raise n cs e o v card).Plain (-(v : Int)).natAbs := by
    rw [Int.natAbs_neg, Int.natAbs_natCast]
    exact fun plain => plain e.card _ (o.level + 1) inst.here spec.made
  refine ⟨by rw [h.wf.weight_neg, free]; rfl, by omega, output, o.initialWeight, by omega,
    by simp only at weightLt; omega, ?_⟩
  have := weight_install wfGrown inst
  rwa [weight_grow] at this

end Heads
end Raise
end EvalMaxSat
