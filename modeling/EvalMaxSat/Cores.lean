import EvalMaxSat.SoftClauses
import EvalMaxSat.Solve

/-!
Taking weight from soft literals, and the treatment of a core.
-/
namespace EvalMaxSat
open Literals OrderedContainers LawfulSink EvalMaxSAT

variable {K : Type} {ws ks : List Int} {s t : EvalMaxSAT K} {lit w : Int}

theorem wf_perm (wf : Wf ws s) (perm : ws.Perm ks) : Wf ks s :=
  { wf with
    cards := by
      intro c o cell
      have ok := wf.cards c o cell
      refine { ok with last := ?_ }
      obtain ⟨x, made, state⟩ := ok.last
      exact ⟨x, made, state.imp id (Or.imp (fun mem => perm.subset mem) id)⟩
    nodup := perm.nodup wf.nodup
    waiting := fun l mem => wf.waiting l (perm.symm.subset mem) }

theorem take_eq (wf : Wf ws s) (pos : 0 < w) (le : w ≤ s.weight lit) :
    s.poids.add lit (i64 (-w)) = s.poids.set lit (s.weight lit - w) := by
  have range := wf.weight_range lit
  have sum : (s.poids.get lit + -w).natAbs < 2 ^ 63 := by
    simp only [EvalMaxSAT.weight] at range le; omega
  rw [i64_of_range (by omega) (by omega), WeightVector.add_eq wf.poids_bounded (by omega) sum]
  rfl

theorem take_owed {m : WeightMap} (wf : Wf ws s) (pos : 0 < w) (le : w ≤ s.weight lit) (γ : Gauge) :
    (s.putWeight lit (s.weight lit - w) m).owed γ + (if γ lit then w.toNat else 0) =
      s.owed γ := by
  obtain ⟨nonzero, bound⟩ := wf.weighted_inside (by omega : s.weight lit ≠ 0)
  have range := wf.weight_range lit
  have put := owed_put (m := m) (x := s.weight lit - w) wf γ (by omega) nonzero bound
  rw [charge_pos (by omega), charge_pos (by omega)] at put
  by_cases value : γ lit = true
  · rw [if_pos value, if_pos value] at put
    rw [if_pos value]; omega
  · rw [if_neg value, if_neg value] at put
    rw [if_neg value]; omega

theorem take_weight {m : WeightMap} (wf : Wf ws s) (pos : 0 < w) (le : w ≤ s.weight lit) :
    (s.putWeight lit (s.weight lit - w) m).weight = reweigh s.weight lit (s.weight lit - w) := by
  obtain ⟨nonzero, bound⟩ := wf.weighted_inside (by omega : s.weight lit ≠ 0)
  have range := wf.weight_range lit
  exact weight_put wf (by omega) nonzero bound

theorem take_all (wf : Wf ws s) (soft : 0 < s.weight lit) :
    Wf (if (s.cardOf lit.natAbs).isSome then lit :: ws else ws)
      (s.putWeight lit 0 (s.mapWeight2Assum.eraseLit (u64 (s.weight lit)) lit)) := by
  obtain ⟨nonzero, _⟩ := wf.weighted_inside (by omega : s.weight lit ≠ 0)
  have range := wf.weight_range lit
  have lower := wf_lower wf soft (Int.le_refl 0) (by omega)
    (indexes_erase wf.indexed (wf.weight_neg lit) nonzero soft (by omega))
  simpa using lower

theorem take_part (wf : Wf ws s) (pos : 0 < w) (lt : w < s.weight lit) :
    Wf ws (s.putWeight lit (s.weight lit - w)
      ((s.mapWeight2Assum.eraseLit (u64 (s.weight lit)) lit).insertLit
        (u64 (s.weight lit - w)) lit)) := by
  obtain ⟨nonzero, _⟩ := wf.weighted_inside (by omega : s.weight lit ≠ 0)
  have range := wf.weight_range lit
  have opposite := wf.weight_neg lit
  have erased := indexes_erase wf.indexed opposite nonzero (by omega) (by omega)
  have index := indexes_insert (k := lit) (x := s.weight lit - w) erased
    (by rw [reweigh, reweigh, if_neg (by omega), if_pos rfl, if_pos rfl]) nonzero
    (by rw [reweigh, if_pos rfl]) (by omega) (by omega)
  rw [reweigh_reweigh] at index
  have lower := wf_lower wf (by omega) (by omega) (by omega) index
  rwa [if_neg (by omega)] at lower

/-- `t` is `s` after `w` was taken from each literal of `c`. -/
structure Lightened (w : Int) (c : Clause) (s t : EvalMaxSAT K) : Prop where
  wf : Wf t.litToRelax t
  solver : t.solver = s.solver
  cards : t.cards = s.cards
  cost : t.cost = s.cost
  cardToAdd : t.cardToAdd = s.cardToAdd
  aside : t.aside = s.aside
  owed : ∀ γ, t.owed γ + w.toNat * c.countP γ = s.owed γ
  weight : ∀ l, t.weight l =
    s.weight l - (if l ∈ c then w else 0) + if -l ∈ c then w else 0

theorem reweigh_taken (wf : Wf ws s) (pos : 0 < w) (le : w ≤ s.weight lit) (l : Int) :
    reweigh s.weight lit (s.weight lit - w) l =
      s.weight l - (if l ∈ [lit] then w else 0) + if -l ∈ [lit] then w else 0 := by
  have nonzero := (wf.weighted_inside (by omega : s.weight lit ≠ 0)).1
  have opposite := wf.weight_neg lit
  simp only [reweigh, List.mem_singleton]
  by_cases same : l = lit
  · subst same; rw [if_pos rfl, if_pos rfl, if_neg (by omega)]; omega
  · by_cases neg : l = -lit
    · subst neg
      rw [if_neg same, if_pos rfl, if_neg same, if_pos (by omega)]; omega
    · rw [if_neg same, if_neg neg, if_neg same, if_neg (by omega)]; omega

theorem lightenLit_spec (wf : Wf s.litToRelax s) (pos : 0 < w) (le : w ≤ s.weight lit) :
    Lightened w [lit] s (s.lightenLit w lit) := by
  have taken := take_eq wf pos le
  have count : ∀ γ : Gauge, w.toNat * [lit].countP γ = if γ lit then w.toNat else 0 := by
    intro γ
    cases value : γ lit <;> simp [value]
  have read : ∀ map, (s.putWeight lit (s.weight lit - w) map).weight lit = s.weight lit - w := by
    intro map
    rw [take_weight wf pos le, reweigh, if_pos rfl]
  have start : s.lightenLit w lit =
      (fun u : EvalMaxSAT K => if u.weight lit = 0 then
          if (u.cardOf lit.natAbs).isSome then { u with litToRelax := u.litToRelax ++ [lit] } else u
        else { u with mapWeight2Assum := u.mapWeight2Assum.insertLit (u64 (u.weight lit)) lit })
      (s.putWeight lit (s.weight lit - w)
        (s.mapWeight2Assum.eraseLit (u64 (s.weight lit)) lit)) := by
    rw [EvalMaxSAT.lightenLit, taken]; rfl
  rw [start]
  simp only [read]
  by_cases all : s.weight lit - w = 0
  · have whole := take_all wf (by omega : 0 < s.weight lit)
    have owed := take_owed (m := s.mapWeight2Assum.eraseLit (u64 (s.weight lit)) lit) wf pos le
    have weight := take_weight (m := s.mapWeight2Assum.eraseLit (u64 (s.weight lit)) lit) wf pos le
    rw [if_pos all]
    rw [all] at owed weight ⊢
    have cardOf : EvalMaxSAT.cardOf (s.putWeight lit 0
        (s.mapWeight2Assum.eraseLit (u64 (s.weight lit)) lit)) lit.natAbs = s.cardOf lit.natAbs := rfl
    rw [cardOf]
    have described := reweigh_taken wf pos le
    rw [all] at described
    split
    · rename_i waits
      rw [if_pos waits] at whole
      refine ⟨?_, rfl, rfl, rfl, rfl, rfl, fun γ => by rw [count]; exact owed γ, ?_⟩
      · have moved := wf_congr (t := { s.putWeight lit 0
            (s.mapWeight2Assum.eraseLit (u64 (s.weight lit)) lit) with
              litToRelax := s.litToRelax ++ [lit] }) whole rfl rfl rfl rfl rfl rfl rfl
        exact wf_perm moved (List.perm_append_singleton lit s.litToRelax).symm
      · intro l
        exact (congrFun weight l).trans (described l)
    · rename_i free
      rw [if_neg free] at whole
      refine ⟨whole, rfl, rfl, rfl, rfl, rfl, fun γ => by rw [count]; exact owed γ, ?_⟩
      intro l
      exact (congrFun weight l).trans (described l)
  · rw [if_neg all]
    have part := take_part wf pos (by omega : w < s.weight lit)
    refine ⟨part, rfl, rfl, rfl, rfl, rfl, ?_, ?_⟩
    · intro γ
      rw [count]
      exact take_owed wf pos le γ
    · intro l
      have weight := take_weight (m := (s.mapWeight2Assum.eraseLit (u64 (s.weight lit)) lit).insertLit
        (u64 (s.weight lit - w)) lit) wf pos le
      exact (congrFun weight l).trans (reweigh_taken wf pos le l)

theorem lightened_nil (wf : Wf s.litToRelax s) : Lightened w [] s s :=
  ⟨wf, rfl, rfl, rfl, rfl, rfl, fun γ => by simp, fun l => by simp⟩

theorem lightened_cons {c : Clause} {u : EvalMaxSAT K} (first : Lightened w [lit] s u)
    (rest : Lightened w c u t) (apart : lit ∉ c) : Lightened w (lit :: c) s t := by
  refine ⟨rest.wf, rest.solver.trans first.solver, rest.cards.trans first.cards,
    rest.cost.trans first.cost, rest.cardToAdd.trans first.cardToAdd,
    rest.aside.trans first.aside, ?_, ?_⟩
  · intro γ
    have one := first.owed γ
    have more := rest.owed γ
    have split : (lit :: c).countP γ = [lit].countP γ + c.countP γ := by
      rw [← List.countP_append]; rfl
    rw [split, Nat.mul_add]
    omega
  · intro l
    rw [rest.weight, first.weight]
    simp only [List.mem_cons, List.not_mem_nil, or_false]
    by_cases here : l = lit
    · subst here
      by_cases there : -l = l
      · rw [there, if_pos rfl, if_neg apart, if_pos (Or.inl rfl)]; omega
      · simp only [apart, there, if_true, if_false, true_or, false_or]; omega
    · by_cases there : -l = lit
      · subst there
        simp only [apart, here, if_true, if_false, true_or, false_or]; omega
      · simp only [here, there, if_false, false_or]; omega

/-- The assumptions are the literals of weight at least `minWeight`. -/
def AssumOk (minWeight : Nat) (s : EvalMaxSAT K) (assum : OSet Int) : Prop :=
  ∀ l, l ∈ assum ↔ (minWeight : Int) ≤ s.weight l

theorem assumOk_lighten {minWeight : Nat} {assum : OSet Int} (wf : Wf ws s) (pos : 0 < w)
    (le : w ≤ s.weight lit) (least : 1 ≤ minWeight) (ok : AssumOk minWeight s assum)
    (light : Lightened w [lit] s t) : AssumOk minWeight t
      (if u64 (t.weight lit) < minWeight then assum.erase lit else assum) := by
  have nonzero := (wf.weighted_inside (by omega : s.weight lit ≠ 0)).1
  have range := wf.weight_range lit
  have here : t.weight lit = s.weight lit - w := by
    rw [light.weight, if_pos (List.mem_singleton_self _), if_neg (by simp; omega)]; omega
  have word : u64 (t.weight lit) = (s.weight lit - w).toNat := by
    rw [here, u64_toNat (by omega) (by omega)]
  have there : t.weight (-lit) = -(s.weight lit) + w := by
    rw [light.weight, if_neg (by simp; omega), neg_neg, if_pos (List.mem_singleton_self _),
      wf.weight_neg]; omega
  intro l
  by_cases same : l = lit
  · subst same
    have old := ok l
    split
    · simp only [OSet.mem_erase, ne_eq, not_true_eq_false, and_false, false_iff]; omega
    · rw [old]; omega
  · have kept : (l ∈ if u64 (t.weight lit) < minWeight then assum.erase lit else assum) ↔
        l ∈ assum := by
      split
      · simp [same]
      · exact Iff.rfl
    rw [kept, ok l]
    by_cases opposite : l = -lit
    · subst opposite
      have := wf.weight_neg lit
      omega
    · have : t.weight l = s.weight l := by
        rw [light.weight, if_neg (by simpa using same), if_neg (by simp; omega)]; omega
      rw [this]

theorem lightenAll_spec {minWeight : Nat} (least : 1 ≤ minWeight) (pos : 0 < w) (c : Clause)
    {s : EvalMaxSAT K} {assum : OSet Int} (wf : Wf s.litToRelax s) (nodup : c.Nodup)
    (heavy : ∀ l ∈ c, w ≤ s.weight l) (ok : AssumOk minWeight s assum) :
    let out := c.foldl (fun (r : OSet Int × EvalMaxSAT K) lit =>
      let s := r.2.lightenLit w lit
      (if u64 (s.weight lit) < minWeight then r.1.erase lit else r.1, s)) (assum, s)
    Lightened w c s out.2 ∧ AssumOk minWeight out.2 out.1 := by
  induction c generalizing s assum with
  | nil => exact ⟨lightened_nil wf, ok⟩
  | cons lit c ih =>
    obtain ⟨apart, nodup⟩ := List.nodup_cons.mp nodup
    have le := heavy lit (by simp)
    have first := lightenLit_spec wf pos le
    have heavy' : ∀ l ∈ c, w ≤ (s.lightenLit w lit).weight l := by
      intro l mem
      have ne : l ≠ lit := by rintro rfl; exact apart mem
      have := heavy l (by simp [mem])
      have opposite : -l ≠ lit := by
        rintro rfl
        have := wf.weight_neg l
        omega
      rw [first.weight, if_neg (by simpa using ne), if_neg (by simpa using opposite)]
      omega
    obtain ⟨rest, ok'⟩ := ih first.wf nodup heavy' (assumOk_lighten wf pos le least ok first)
    exact ⟨lightened_cons first rest apart, ok'⟩

theorem minWeightFrom_spec (w : Int) (s : EvalMaxSAT K) (c : Clause) :
    minWeightFrom w s c ≤ w ∧ (∀ l ∈ c, minWeightFrom w s c ≤ s.weight l) ∧
      (minWeightFrom w s c = w ∨ ∃ l ∈ c, minWeightFrom w s c = s.weight l) := by
  induction c generalizing w with
  | nil => simp [minWeightFrom]
  | cons l c ih =>
    simp only [minWeightFrom, List.foldl_cons] at ih ⊢
    split
    · rename_i lighter
      obtain ⟨le, all, one⟩ := ih (s.weight l)
      refine ⟨by omega, ?_, ?_⟩
      · intro k mem
        rcases List.mem_cons.mp mem with same | mem
        · subst same; exact le
        · exact all k mem
      · right
        rcases one with same | ⟨k, mem, same⟩
        · exact ⟨l, by simp, same⟩
        · exact ⟨k, by simp [mem], same⟩
    · rename_i heavier
      obtain ⟨le, all, one⟩ := ih w
      refine ⟨le, ?_, ?_⟩
      · intro k mem
        rcases List.mem_cons.mp mem with same | mem
        · subst same; omega
        · exact all k mem
      · rcases one with same | ⟨k, mem, same⟩
        · exact Or.inl same
        · exact Or.inr ⟨k, by simp [mem], same⟩

theorem falseCount_neg (γ : Gauge) (c : Clause) :
    falseCount γ (c.map fun l => -l) = c.countP γ := by
  simp only [falseCount, List.countP_map]
  apply List.countP_congr
  intro l _
  simp

theorem pendingSum_append (γ : Gauge) (cores : List (Clause × Nat)) (c : Clause) (w : Nat) :
    pendingSum γ (cores ++ [(c, w)]) = pendingSum γ cores + w * (falseCount γ c - 1) := by
  simp [pendingSum]

structure CoreSpec (s t : EvalMaxSAT K) : Prop where
  wf : Wf t.litToRelax t
  paid : ∃ d, 0 < d ∧ Rewrites d s t
  climbs : Climbs 0 s t

theorem climbs_lightened {c : Clause} (wf : Wf ws s) (light : Lightened w c s t) (pos : 0 < w)
    (soft : ∀ l ∈ c, 0 < s.weight l) : Climbs 0 s t := by
  refine climbs_same wf (Nat.le_of_eq (by rw [light.solver])) light.cards ?_
  intro d o x cell made
  have nonpos := ((wf.cards d o cell).outputs _ _ made).1
  have notIn : x ∉ c := fun mem => by have := soft x mem; omega
  rw [light.weight, neg_neg, if_neg notIn]
  split <;> omega

theorem pendCore_spec {c : Clause} {u : EvalMaxSAT K} (wf : Wf s.litToRelax s)
    (light : Lightened w c s u) (pos : 0 < w) (range : w < 2 ^ 63) (nonempty : c ≠ [])
    (soft : ∀ l ∈ c, 0 < s.weight l) (core : Inconsistent s.solver.clauses c) :
    CoreSpec s { u with
      cardToAdd := u.cardToAdd ++ [(c.map fun l => -l, u64 w)]
      cost := u64 (u.cost + w) } := by
  have word : u64 w = w.toNat := u64_toNat (by omega) (by omega)
  have countPos : ∀ m, Models m s.solver.clauses → 1 ≤ c.countP (falsified m) := by
    intro m models
    apply List.countP_pos_iff.mpr
    by_contra none
    apply core m models
    intro l mem
    cases value : litTrue m l with
    | true => rfl
    | false => exact absurd ⟨l, mem, by simp [falsified, value]⟩ none
  have balance : ∀ γ, 1 ≤ c.countP γ →
      softSum γ u.poids + pendingSum γ (u.cardToAdd ++ [(c.map fun l => -l, u64 w)]) +
        cardSum γ u.cards + w.toNat = s.owed γ := by
    intro γ some_false
    have owed := light.owed γ
    rw [pendingSum_append, falseCount_neg, word]
    simp only [EvalMaxSAT.owed] at owed ⊢
    obtain ⟨k, eq⟩ : ∃ k, c.countP γ = k + 1 := ⟨c.countP γ - 1, by omega⟩
    rw [eq, Nat.mul_succ] at owed
    rw [eq, Nat.add_sub_cancel]
    omega
  have everyPos : 1 ≤ c.countP everyLit := by
    rw [show c.countP everyLit = c.length by simp [everyLit]]
    exact List.length_pos_iff.mpr nonempty
  have sim : Sim (fun _ => w.toNat) s { u with
      cardToAdd := u.cardToAdd ++ [(c.map fun l => -l, u64 w)]
      cost := u64 (u.cost + w) } := by
    refine ⟨Nat.le_of_eq (by rw [light.solver]), by rw [light.solver]; exact List.Subset.refl _,
      fun v _ => ?_, balance everyLit everyPos, ?_, ?_⟩
    · unfold EvalMaxSAT.Plain
      change (∀ (c : Nat) o k, u.cards[c]? = some o → _) ↔ _
      rw [light.cards]
    · intro m models canonical _
      refine ⟨m, agree_refl _ m, by rw [light.solver]; exact models, ?_,
        balance _ (countPos m models)⟩
      intro o mem
      rw [light.cards] at mem
      exact canonical o mem
    · intro m models
      rw [light.solver] at models
      exact Nat.le_of_eq (balance _ (countPos m models)).symm
  have wfU := light.wf
  refine ⟨?_, ⟨w.toNat, by omega, sim, by simp only [light.cost]; congr 1; omega, light.aside⟩,
    climbs_congr (t := u) (climbs_lightened wf light pos soft) rfl rfl rfl rfl rfl rfl⟩
  refine ⟨wfU.poidsSize, wfU.entriesSize, wfU.zero, wfU.within, ?_, wfU.indexed, ?_, ?_,
    wfU.entries, wfU.disjoint, wfU.nodup, wfU.waiting⟩
  · exact wfU.poids_bounded
  · intro p mem
    rcases List.mem_append.mp mem with mem | mem
    · exact wfU.pending p mem
    · simp only [List.mem_singleton] at mem
      subst mem
      refine ⟨by simpa using nonempty, ?_, by rw [word]; omega, by rw [word]; omega⟩
      intro l mem
      obtain ⟨k, inCore, eq⟩ := List.mem_map.mp mem
      subst eq
      obtain ⟨nonzero, bound⟩ := wf.weighted_inside
        (by have := soft k inCore; omega : s.weight k ≠ 0)
      rw [← light.solver] at bound
      simp only [Int.natAbs_neg]
      exact ⟨by omega, bound⟩
  · intro d o cell
    exact cardOk_transfer (wfU.cards d o cell) (Nat.le_refl _) (List.Subset.refl _)
      (fun _ _ _ => ⟨rfl, rfl⟩) (fun _ _ h => h)

theorem splitCore_spec {minWeight : Nat} {assum : OSet Int} {c : Clause}
    (wf : Wf s.litToRelax s) (least : 1 ≤ minWeight) (ok : AssumOk minWeight s assum)
    (nonempty : c ≠ []) (nodup : c.Nodup) (inside : ∀ l ∈ c, l ∈ assum)
    (core : Inconsistent s.solver.clauses c) :
    CoreSpec s (s.splitCore minWeight assum c).2 ∧
      AssumOk minWeight (s.splitCore minWeight assum c).2 (s.splitCore minWeight assum c).1 := by
  obtain ⟨top, all, one⟩ := minWeightFrom_spec (2 ^ 63 - 1) s c
  have soft : ∀ l ∈ c, 0 < s.weight l := by
    intro l mem
    have := (ok l).mp (inside l mem)
    omega
  have pos : 0 < minWeightFrom (2 ^ 63 - 1) s c := by
    rcases one with same | ⟨l, mem, same⟩
    · omega
    · rw [same]; exact soft l mem
  obtain ⟨light, ok'⟩ := lightenAll_spec least pos c wf nodup all ok
  exact ⟨pendCore_spec wf light pos (by omega) nonempty soft core, ok'⟩

end EvalMaxSat
