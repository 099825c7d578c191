import EvalMaxSat.Invariant

/-!
Changes of a single weight: what they do to the invariant and to what the state owes.
-/
namespace EvalMaxSat
open Literals OrderedContainers LawfulSink

variable {K : Type} {ws : List Int} {s t : EvalMaxSAT K}

namespace Wf

theorem weight_neg (wf : Wf ws s) (lit : Int) : s.weight (-lit) = -s.weight lit := by
  by_cases zero : lit = 0
  · subst zero; rw [neg_zero, wf.zero]; rfl
  · exact WeightVector.get_neg wf.poids_bounded zero

theorem weight_range (wf : Wf ws s) (lit : Int) : (s.weight lit).natAbs < 2 ^ 63 :=
  WeightVector.get_range wf.poids_bounded lit

theorem weighted_inside (wf : Wf ws s) {lit : Int} (weighted : s.weight lit ≠ 0) :
    lit ≠ 0 ∧ lit.natAbs ≤ s.solver.nVar := by
  refine ⟨?_, ?_⟩
  · rintro rfl; exact weighted wf.zero
  · by_contra outside
    apply weighted
    exact WeightVector.get_outside wf.poids_bounded (by rw [wf.poidsSize]; omega)

theorem inside (wf : Wf ws s) {lit : Int} (bound : lit.natAbs ≤ s.solver.nVar) :
    lit.natAbs < s.poids.size := by
  rw [wf.poidsSize]; omega

theorem output_pos (wf : Wf ws s) {c k : Nat} {o : CardObject} {x : Int}
    (cell : s.cards[c]? = some o) (made : o.card.output k = some x) :
    0 < x ∧ x.natAbs ≤ s.solver.nVar :=
  let ok := wf.cards c o cell
  TotTree.output_bound ok.ready.tree ok.ready.several made

theorem plain_entry (wf : Wf ws s) {v : Nat} (plain : s.Plain v) : s.cardOf v = none := by
  cases entry : s.cardOf v with
  | none => rfl
  | some e =>
    obtain ⟨o, cell, _, _, made⟩ := wf.entries v e entry
    exact absurd made (plain e.card o e.atMost cell)

theorem entry_of_soft (wf : Wf ws s) {lit : Int} (soft : 0 < s.weight lit) {e : LitCard}
    (entry : s.cardOf lit.natAbs = some e) : ∃ o, s.cards[e.card]? = some o ∧
      e = ⟨e.card, o.level, o.initialWeight⟩ ∧ lit = -(lit.natAbs : Int) ∧
      o.card.output o.level = some (lit.natAbs : Int) := by
  obtain ⟨o, cell, _, _, made⟩ := wf.entries _ _ entry
  have out := (wf.cards _ _ cell).outputs _ _ made
  have sign : lit = -(lit.natAbs : Int) := by
    rcases Int.natAbs_eq lit with same | same
    · rw [← same] at out; omega
    · exact same
  have weighted : s.weight (lit.natAbs : Int) ≠ 0 := by
    have : s.weight lit = -s.weight (lit.natAbs : Int) := by
      rw [← wf.weight_neg, ← sign]
    omega
  obtain ⟨atLevel, here⟩ := out.2 weighted
  rw [Int.natAbs_natCast] at here
  rw [entry] at here
  refine ⟨o, cell, ?_, sign, ?_⟩
  · have := Option.some.inj here
    rw [this]
  · rw [← atLevel]; exact made

end Wf

theorem cardOk_transfer {c : Nat} {o : CardObject} {ks : List Int} (ok : CardOk s ws c o)
    (vars_le : s.solver.nVar ≤ t.solver.nVar) (sub : s.solver.clauses ⊆ t.solver.clauses)
    (same : ∀ k x, o.card.output k = some x →
      t.weight x = s.weight x ∧ t.cardOf x.natAbs = s.cardOf x.natAbs)
    (keep : ∀ x, o.card.output o.level = some x → -x ∈ ws → -x ∈ ks) : CardOk t ks c o where
  ready := CardIncremental_Lazy.ready_later ok.ready vars_le sub
  level_pos := ok.level_pos
  level_lt := ok.level_lt
  weight_pos := ok.weight_pos
  weight_lt := ok.weight_lt
  outputs := by
    intro k x made
    rw [(same k x made).1, (same k x made).2]
    exact ok.outputs k x made
  last := by
    obtain ⟨x, made, state⟩ := ok.last
    refine ⟨x, made, ?_⟩
    rw [(same _ x made).1]
    rcases state with active | waits | fixed | final
    · exact Or.inl active
    · exact Or.inr (Or.inl (keep x made waits))
    · exact Or.inr (Or.inr (Or.inl (sub fixed)))
    · exact Or.inr (Or.inr (Or.inr final))

theorem wf_reindex (wf : Wf ws s) (nVar : t.solver.nVar = s.solver.nVar)
    (clauses : t.solver.clauses = s.solver.clauses) (poids : t.poids = s.poids)
    (index : Indexes t.mapWeight2Assum s.weight) (entries : t.mapAssum2Card = s.mapAssum2Card)
    (cards : t.cards = s.cards) (pending : t.cardToAdd = s.cardToAdd) : Wf ws t := by
  have weight : ∀ l, t.weight l = s.weight l := by simp [EvalMaxSAT.weight, poids]
  have cardOf : ∀ v, t.cardOf v = s.cardOf v := by simp [EvalMaxSAT.cardOf, entries]
  refine ⟨?_, ?_, ?_, ?_, ?_, ?_, ?_, ?_, ?_, ?_, wf.nodup, ?_⟩
  · rw [poids, nVar]; exact wf.poidsSize
  · rw [entries, nVar]; exact wf.entriesSize
  · rw [weight]; exact wf.zero
  · intro c mem
    rw [clauses_eq, clauses] at mem
    rw [vars_eq, nVar]
    exact wf.within c mem
  · rw [poids]; exact wf.poids_bounded
  · rw [show t.weight = s.weight from funext weight]; exact index
  · rw [pending, nVar]; exact wf.pending
  · intro c o cell
    rw [cards] at cell
    exact cardOk_transfer (wf.cards c o cell) (Nat.le_of_eq nVar.symm)
      (by rw [clauses]; exact List.Subset.refl _) (fun _ _ _ => ⟨weight _, cardOf _⟩)
      (fun _ _ h => h)
  · intro v e entry
    rw [cardOf] at entry
    obtain ⟨o, cell, rest⟩ := wf.entries v e entry
    exact ⟨o, by rw [cards]; exact cell, rest⟩
  · rw [cards]; exact wf.disjoint
  · intro l mem
    obtain ⟨unweighted, v, e, o, eq, entry, cell, level⟩ := wf.waiting l mem
    exact ⟨by rw [weight]; exact unweighted, v, e, o, eq, by rw [cardOf]; exact entry,
      by rw [cards]; exact cell, level⟩

theorem wf_congr (wf : Wf ws s) (nVar : t.solver.nVar = s.solver.nVar)
    (clauses : t.solver.clauses = s.solver.clauses) (poids : t.poids = s.poids)
    (map : t.mapWeight2Assum = s.mapWeight2Assum) (entries : t.mapAssum2Card = s.mapAssum2Card)
    (cards : t.cards = s.cards) (pending : t.cardToAdd = s.cardToAdd) : Wf ws t :=
  wf_reindex wf nVar clauses poids (by rw [map]; exact wf.indexed) entries cards pending

/-- Where neither variables nor clauses nor cardinalities change, a balance for every gauge
is all there is to show. -/
theorem sim_of_owed {less : Gauge → Nat} (nVar : t.solver.nVar = s.solver.nVar)
    (clauses : t.solver.clauses = s.solver.clauses) (cards : t.cards = s.cards)
    (balance : ∀ γ, t.owed γ + less γ = s.owed γ) : Sim less s t where
  vars := Nat.le_of_eq nVar.symm
  clauses := by rw [clauses]; exact List.Subset.refl _
  plain := fun v _ => by unfold EvalMaxSAT.Plain; rw [cards]
  potential := balance everyLit
  forward := fun m models canonical _ => ⟨m, agree_refl _ m, by rw [clauses]; exact models,
    by unfold EvalMaxSAT.Canonical; rw [cards]; exact canonical, balance _⟩
  backward := fun m _ => Nat.le_of_eq (balance _).symm

section SetWeight
variable {lit x : Int} {map : WeightMap}

def EvalMaxSAT.putWeight (s : EvalMaxSAT K) (lit x : Int) (map : WeightMap) : EvalMaxSAT K :=
  { s with poids := s.poids.set lit x, mapWeight2Assum := map }

theorem weight_put {m : WeightMap} (wf : Wf ws s) (range : x.natAbs < 2 ^ 63) (nonzero : lit ≠ 0)
    (bound : lit.natAbs ≤ s.solver.nVar) :
    (s.putWeight lit x m).weight = reweigh s.weight lit x := by
  funext l
  exact WeightVector.get_set wf.poids_bounded range (wf.inside bound) nonzero l

theorem owed_put {m : WeightMap} (wf : Wf ws s) (γ : Gauge) (range : x.natAbs < 2 ^ 63) (nonzero : lit ≠ 0)
    (bound : lit.natAbs ≤ s.solver.nVar) :
    (s.putWeight lit x m).owed γ + charge γ lit (s.weight lit) = s.owed γ + charge γ lit x := by
  have := WeightVector.softSum_set wf.poids_bounded γ range (wf.inside bound) nonzero
  simp only [EvalMaxSAT.owed, EvalMaxSAT.putWeight]
  simp only [EvalMaxSAT.weight]
  omega

theorem potential_put {a : WeightMap} (wf : Wf ws s) (range : x.natAbs < 2 ^ 63) (nonzero : lit ≠ 0)
    (bound : lit.natAbs ≤ s.solver.nVar) :
    (s.putWeight lit x a).potential + (s.weight lit).natAbs = s.potential + x.natAbs := by
  have := owed_put (m := a) wf everyLit range nonzero bound
  rwa [charge_every, charge_every] at this

theorem wf_put {ks : List Int} (wf : Wf ws s) (range : x.natAbs < 2 ^ 63) (nonzero : lit ≠ 0)
    (bound : lit.natAbs ≤ s.solver.nVar) (index : Indexes map (reweigh s.weight lit x))
    (cards : ∀ c o, s.cards[c]? = some o → CardOk (s.putWeight lit x map) ks c o)
    (nodup : ks.Nodup) (waiting : ∀ l ∈ ks, (s.putWeight lit x map).Waiting l) :
    Wf ks (s.putWeight lit x map) where
  poidsSize := by
    simp only [EvalMaxSAT.putWeight, WeightVector.size_set]; exact wf.poidsSize
  entriesSize := wf.entriesSize
  zero := by
    rw [weight_put wf range nonzero bound, reweigh, if_neg (Ne.symm nonzero), if_neg (by omega)]
    exact wf.zero
  within := wf.within
  poids_bounded := WeightVector.bounded_set wf.poids_bounded range (wf.inside bound)
  indexed := by rw [weight_put wf range nonzero bound]; exact index
  pending := wf.pending
  cards := cards
  entries := wf.entries
  disjoint := wf.disjoint
  nodup := nodup
  waiting := waiting

theorem wf_lower (wf : Wf ws s) (soft : 0 < s.weight lit) (nonneg : 0 ≤ x)
    (le : x ≤ s.weight lit) (index : Indexes map (reweigh s.weight lit x)) :
    Wf (if x = 0 ∧ (s.cardOf lit.natAbs).isSome then lit :: ws else ws)
      (s.putWeight lit x map) := by
  obtain ⟨nonzero, bound⟩ := wf.weighted_inside (by omega : s.weight lit ≠ 0)
  have range : x.natAbs < 2 ^ 63 := by have := wf.weight_range lit; omega
  have weight := weight_put (m := map) wf range nonzero bound
  have elsewhere : ∀ l, s.weight l = 0 → (s.putWeight lit x map).weight l = 0 := by
    intro l unweighted
    rw [weight]
    simp only [reweigh]
    have opposite := wf.weight_neg lit
    split
    · rename_i same; subst same; omega
    · split
      · rename_i same; subst same; omega
      · exact unweighted
  have old : ∀ l ∈ ws, (s.putWeight lit x map).Waiting l := by
    intro l mem
    obtain ⟨unweighted, rest⟩ := wf.waiting l mem
    exact ⟨elsewhere l unweighted, rest⟩
  refine wf_put wf range nonzero bound index ?_ ?_ ?_
  · intro c o cell
    have ok := wf.cards c o cell
    refine ⟨CardIncremental_Lazy.ready_later ok.ready (Nat.le_refl _) (List.Subset.refl _),
      ok.level_pos, ok.level_lt, ok.weight_pos, ok.weight_lt, ?_, ?_⟩
    · intro k y made
      obtain ⟨nonpos, atLevel⟩ := ok.outputs k y made
      rw [weight]
      simp only [reweigh]
      split
      · rename_i same; subst same; omega
      · split
        · rename_i same
          have : s.weight y ≠ 0 := by rw [same, wf.weight_neg]; omega
          exact ⟨by omega, fun _ => atLevel this⟩
        · exact ⟨nonpos, atLevel⟩
    · obtain ⟨y, made, state⟩ := ok.last
      refine ⟨y, made, ?_⟩
      obtain ⟨nonpos, atLevel⟩ := ok.outputs _ y made
      by_cases here : y = -lit
      · have weighted : s.weight y ≠ 0 := by rw [here, wf.weight_neg]; omega
        have entry := (atLevel weighted).2
        have var : y.natAbs = lit.natAbs := by omega
        rw [weight, here, reweigh, if_neg (by omega), if_pos rfl, neg_neg]
        by_cases gone : x = 0
        · right; left
          rw [if_pos ⟨gone, by rw [← var, entry]; rfl⟩]
          simp
        · left; omega
      · have there : y ≠ lit := by rintro rfl; omega
        rw [weight, reweigh, if_neg there, if_neg here]
        rcases state with active | waits | other
        · exact Or.inl active
        · right; left; split
          · simp [waits]
          · exact waits
        · exact Or.inr (Or.inr other)
  · split
    · refine List.nodup_cons.mpr ⟨?_, wf.nodup⟩
      intro mem
      have := (wf.waiting lit mem).1
      omega
    · exact wf.nodup
  · intro l mem
    split at mem
    · rename_i gone
      rcases List.mem_cons.mp mem with same | mem
      · subst same
        obtain ⟨e, entry⟩ := Option.isSome_iff_exists.mp gone.2
        obtain ⟨o, cell, shape, sign, _⟩ := wf.entry_of_soft soft entry
        refine ⟨?_, l.natAbs, e, o, sign, entry, cell, by rw [shape]⟩
        rw [weight, reweigh, if_pos rfl]; exact gone.1
      · exact old l mem
    · exact old l mem

theorem wf_shift (wf : Wf ws s) (plain : s.Plain lit.natAbs) (range : x.natAbs < 2 ^ 63)
    (nonzero : lit ≠ 0) (bound : lit.natAbs ≤ s.solver.nVar)
    (index : Indexes map (reweigh s.weight lit x)) : Wf ws (s.putWeight lit x map) := by
  have weight := weight_put (m := map) wf range nonzero bound
  have other : ∀ l : Int, l.natAbs ≠ lit.natAbs →
      (s.putWeight lit x map).weight l = s.weight l := by
    intro l ne
    rw [weight, reweigh, if_neg (by rintro rfl; exact ne rfl), if_neg (by rintro rfl; omega)]
  refine wf_put wf range nonzero bound index ?_ wf.nodup ?_
  · intro c o cell
    refine cardOk_transfer (wf.cards c o cell) (Nat.le_refl _) (List.Subset.refl _) ?_
      (fun _ _ h => h)
    intro k y made
    refine ⟨other y ?_, rfl⟩
    intro same
    have pos := (wf.output_pos cell made).1
    apply plain c o k cell
    rw [made, ← same]; congr 1; omega
  · intro l mem
    obtain ⟨unweighted, v, e, o, eq, entry, rest⟩ := wf.waiting l mem
    refine ⟨?_, v, e, o, eq, entry, rest⟩
    rw [other l ?_]
    · exact unweighted
    · intro same
      have := wf.plain_entry plain
      rw [← same, eq, Int.natAbs_neg, Int.natAbs_natCast, entry] at this
      simp at this

end SetWeight
end EvalMaxSat
