import EvalMaxSat.Replays

/-!
`harden` from any state whose weight index is consistent, whatever the bounds are: it ends,
keeps every model that beats the solution, and leaves no literal heavy enough behind.
-/
namespace EvalMaxSat
open Literals OrderedContainers EvalMaxSAT StepProgram

variable {K : Type} {s t u : EvalMaxSAT K} {assum : OSet Int}

/-- The entries are those of a `long long`, and the index holds the literals of positive
weight. -/
structure Consistent (s : EvalMaxSAT K) : Prop where
  machine : ∀ i, -2 ^ 63 ≤ s.poids.weight.getD i 0 ∧ s.poids.weight.getD i 0 < 2 ^ 63
  zero : s.weight 0 = 0
  indexed : Indexes s.mapWeight2Assum s.weight

def EvalMaxSAT.falsifiedWeight (s : EvalMaxSAT K) (m : Assignment) : Nat :=
  ∑ v ∈ Finset.range s.poids.size, ((if litTrue m (v : Int) then 0 else (s.weight v).toNat) +
    if litTrue m (-(v : Int)) then 0 else (s.weight (-(v : Int))).toNat)

/-- The difference that `harden` computes once, with the wrap of the machine. -/
def EvalMaxSAT.maxCostLit (s : EvalMaxSAT K) : Nat := u64 ((s.solutionCost : Int) - s.cost)

/-- `harden` returns at once: there is no bucket, or only the one of weight 1. -/
def EarlyExit (s : EvalMaxSAT K) : Prop :=
  s.mapWeight2Assum.size = 0 ∨
    (s.mapWeight2Assum.size = 1 ∧ s.mapWeight2Assum.entries.head?.map Prod.fst = some 1)

/-- `t` is `s` with the literals `fixed` made hard. -/
structure Fixes (fixed : List Int) (s t : EvalMaxSAT K) : Prop where
  consistent : Consistent t
  clauses : t.solver.clauses = s.solver.clauses ++ fixed.map fun l => [l]
  heavy : ∀ l ∈ fixed, 0 < s.weight l ∧ (s.maxCostLit : Int) ≤ s.weight l
  gone : ∀ l ∈ fixed, t.weight l = 0
  kept : ∀ l, l ∉ fixed → -l ∉ fixed → t.weight l = s.weight l
  cost : t.cost = s.cost
  solutionCost : t.solutionCost = s.solutionCost

theorem fixes_refl (consistent : Consistent s) : Fixes [] s s :=
  ⟨consistent, by simp, by simp, by simp, fun _ _ _ => rfl, rfl, rfl⟩

section Step
variable {lit : Int}

theorem soft_nonzero (consistent : Consistent s) (soft : 0 < s.weight lit) : lit ≠ 0 := by
  rintro rfl
  have := consistent.zero
  omega

theorem soft_inside (soft : 0 < s.weight lit) : lit.natAbs < s.poids.size := by
  by_contra outside
  have none : s.poids.weight.getD lit.natAbs 0 = 0 :=
    List.getD_eq_default _ _ (Nat.le_of_not_lt outside)
  simp only [EvalMaxSAT.weight, WeightVector.get, none] at soft
  split at soft
  · simp [i64] at soft
  · simp at soft

theorem i64_range (x : Int) : -2 ^ 63 ≤ i64 x ∧ i64 x < 2 ^ 63 := by
  simp only [i64, Int.bmod]
  omega

theorem weight_machine (consistent : Consistent s) (lit : Int) :
    -2 ^ 63 ≤ s.weight lit ∧ s.weight lit < 2 ^ 63 := by
  simp only [EvalMaxSAT.weight, WeightVector.get]
  split
  · exact i64_range _
  · exact consistent.machine _

theorem soft_odd (consistent : Consistent s) (soft : 0 < s.weight lit) :
    s.weight (-lit) = -s.weight lit := by
  have nonzero := soft_nonzero consistent soft
  obtain ⟨low, high⟩ := consistent.machine lit.natAbs
  simp only [EvalMaxSAT.weight, WeightVector.get, Int.natAbs_neg] at soft ⊢
  by_cases neg : lit < 0
  · rw [if_pos neg] at soft ⊢
    rw [if_neg (by omega)]
    simp only [i64, Int.bmod] at soft ⊢
    omega
  · rw [if_neg neg] at soft ⊢
    rw [if_pos (by omega), i64_of_range (by omega) (by omega)]

theorem weight_le_falsified {m : Assignment} (soft : 0 < s.weight lit)
    (false_lit : litTrue m lit = false) : s.weight lit ≤ s.falsifiedWeight m := by
  have inside := soft_inside soft
  have single := Finset.single_le_sum
    (f := fun v : Nat => (if litTrue m (v : Int) then 0 else (s.weight v).toNat) +
      if litTrue m (-(v : Int)) then 0 else (s.weight (-(v : Int))).toNat)
    (fun _ _ => Nat.zero_le _) (Finset.mem_range.mpr inside)
  have term : (s.weight lit).toNat ≤ (if litTrue m (lit.natAbs : Int) then 0
      else (s.weight lit.natAbs).toNat) +
      if litTrue m (-(lit.natAbs : Int)) then 0 else (s.weight (-(lit.natAbs : Int))).toNat := by
    rcases Int.natAbs_eq lit with same | same
    · rw [← same, false_lit]; simp
    · rw [← same, false_lit]; simp
  have := term.trans single
  rw [EvalMaxSAT.falsifiedWeight]
  omega

structure FixesOne (lit : Int) (s t : EvalMaxSAT K) : Prop where
  consistent : Consistent t
  clauses : t.solver.clauses = s.solver.clauses ++ [[lit]]
  weight : t.weight = reweigh s.weight lit 0
  map : t.mapWeight2Assum = s.mapWeight2Assum.eraseLit (u64 (s.weight lit)) lit
  cost : t.cost = s.cost
  solutionCost : t.solutionCost = s.solutionCost

theorem get_clear (v : WeightVector) (lit l : Int) :
    (v.set lit 0).get l = if l.natAbs = lit.natAbs then 0 else v.get l := by
  have zero : (if lit < 0 then i64 (-0) else 0) = (0 : Int) := by split <;> rfl
  simp only [WeightVector.get, WeightVector.set, zero]
  by_cases same : l.natAbs = lit.natAbs
  · have entry : (v.weight.set lit.natAbs 0).getD l.natAbs 0 = 0 := by
      rw [same, List.getD_eq_getElem?_getD, List.getElem?_set]
      split
      · split <;> rfl
      · rename_i ne; exact absurd rfl ne
    rw [entry, if_pos same]
    split <;> rfl
  · rw [if_neg same, List.getD_eq_getElem?_getD, List.getElem?_set_ne (Ne.symm same),
      ← List.getD_eq_getElem?_getD]

theorem addHardClause_soft (consistent : Consistent s) (soft : 0 < s.weight lit) :
    FixesOne lit s (s.addHardClause [lit]) := by
  have nonzero := soft_nonzero consistent soft
  have weight : (s.poids.set lit 0).get = reweigh s.weight lit 0 := by
    funext l
    rw [get_clear, reweigh]
    by_cases same : l = lit
    · rw [if_pos (by rw [same]), if_pos same]
    · rw [if_neg same]
      by_cases opposite : l = -lit
      · rw [if_pos (by omega), if_pos opposite]; rfl
      · rw [if_neg (by omega), if_neg opposite]; rfl
  have shape : s.addHardClause [lit] = { s with
      mapWeight2Assum := s.mapWeight2Assum.eraseLit (u64 (s.weight lit)) lit
      poids := s.poids.set lit 0
      solver := s.solver.addClause [lit] } := by
    simp only [addHardClause, clearUnit_pos soft]
    rfl
  rw [shape]
  refine ⟨⟨?_, ?_, ?_⟩, rfl, weight, rfl, rfl, rfl⟩
  · intro i
    have zero : (if lit < 0 then i64 (-0) else 0) = (0 : Int) := by split <;> rfl
    simp only [WeightVector.set, zero, List.getD_eq_getElem?_getD, List.getElem?_set]
    split
    · split <;> simp
    · rw [← List.getD_eq_getElem?_getD]; exact consistent.machine i
  · change (s.poids.set lit 0).get 0 = 0
    rw [weight, reweigh, if_neg (Ne.symm nonzero), if_neg (by omega)]
    exact consistent.zero
  · change Indexes _ (s.poids.set lit 0).get
    rw [weight]
    exact indexes_erase consistent.indexed (soft_odd consistent soft) nonzero soft
      (weight_machine consistent lit).2

end Step

section Bucket
variable {fixed : List Int} {r : OSet Int}

structure HardenedTo (s : EvalMaxSAT K) (assum : OSet Int) (fixed : List Int) (n : Nat) (r : OSet Int)
    (t : EvalMaxSAT K) : Prop where
  fixes : Fixes fixed s t
  count : n = fixed.length
  assums : ∀ l, l ∈ r ↔ l ∈ assum ∧ l ∉ fixed

theorem hardenedTo_next {n : Nat} {lit : Int} (inv : HardenedTo s assum fixed n r t)
    (soft : 0 < t.weight lit) (heavy : (s.maxCostLit : Int) ≤ t.weight lit) (one : FixesOne lit t u) :
    HardenedTo s assum (fixed ++ [lit]) (n + 1) (r.erase lit) u := by
  have nonzero := soft_nonzero inv.fixes.consistent soft
  have new : lit ∉ fixed := fun mem => by have := inv.fixes.gone lit mem; omega
  have opposite := soft_odd inv.fixes.consistent soft
  have negNew : -lit ∉ fixed := fun mem => by have := inv.fixes.gone (-lit) mem; omega
  have same := inv.fixes.kept lit new negNew
  refine ⟨⟨one.consistent, ?_, ?_, ?_, ?_, one.cost.trans inv.fixes.cost,
    one.solutionCost.trans inv.fixes.solutionCost⟩, by rw [inv.count]; simp, ?_⟩
  · rw [one.clauses, inv.fixes.clauses]; simp
  · intro l mem
    rcases List.mem_append.mp mem with old | last
    · exact inv.fixes.heavy l old
    · rw [List.mem_singleton.mp last, ← same]
      exact ⟨soft, heavy⟩
  · intro l mem
    rw [one.weight, reweigh]
    rcases List.mem_append.mp mem with old | last
    · have zero := inv.fixes.gone l old
      split
      · rfl
      · split
        · rfl
        · exact zero
    · rw [if_pos (List.mem_singleton.mp last)]
  · intro l away negAway
    simp only [List.mem_append, List.mem_singleton, not_or] at away negAway
    rw [one.weight, reweigh, if_neg away.2, if_neg (by omega)]
    exact inv.fixes.kept l away.1 negAway.1
  · intro l
    rw [OSet.mem_erase, inv.assums l]
    simp only [List.mem_append, List.mem_singleton, not_or]
    tauto

theorem hardenLits_spec {w : Nat} {lits : OSet Int} {n : Nat} (inv : HardenedTo s assum fixed n r t)
    (found : t.mapWeight2Assum.lookup w = some lits) (heavy : s.maxCostLit ≤ w) :
    Wp (fun _ => True) (hardenLits lits.elems n r) (fun out u => ∃ fixed',
      HardenedTo s assum fixed' out.1 out.2 u ∧ u.isIncremental = t.isIncremental ∧
      u.mapWeight2Assum.keys = t.mapWeight2Assum.keys ∧
      ∀ b, u.mapWeight2Assum.lookup w = some b → b.elems = []) t := by
  have inBucket : ∀ l, l ∈ lits.elems ↔ 0 < w ∧ t.weight l = w := by
    intro l
    rw [← inv.fixes.consistent.indexed l w]
    constructor
    · intro mem; exact ⟨lits, found, mem⟩
    · rintro ⟨b, here, mem⟩
      rwa [Option.some.inj (here.symm.trans found)] at mem
  refine wp_fold (fun xs out u => ∃ fixed', HardenedTo s assum fixed' out.1 out.2 u ∧
      u.isIncremental = t.isIncremental ∧ u.mapWeight2Assum.keys = t.mapWeight2Assum.keys ∧
      xs.Nodup ∧ ∀ l, l ∈ xs ↔ 0 < w ∧ u.weight l = w) ?_ ?_ _ _ _
    ⟨fixed, inv, rfl, rfl, lits.nodup, inBucket⟩
  · rintro lit xs ⟨k, q⟩ v ⟨fixed', inv', mode, keys, nodup, bucket⟩
    replace inv' : HardenedTo s assum fixed' k q v := inv'
    obtain ⟨pos, here⟩ := (bucket lit).mp (by simp)
    have soft : 0 < v.weight lit := by omega
    have one := addHardClause_soft inv'.fixes.consistent soft
    have nonzero := soft_nonzero inv'.fixes.consistent soft
    have odd := soft_odd inv'.fixes.consistent soft
    have range := weight_machine inv'.fixes.consistent lit
    obtain ⟨apart, rest⟩ := List.nodup_cons.mp nodup
    have mode' : (v.addHardClause [lit]).isIncremental = v.isIncremental := by
      simp only [addHardClause, clearUnit_pos soft]
      rfl
    apply wp_bind
    refine wp_act trivial (wp_pure ⟨fixed' ++ [lit], ?_, mode'.trans mode, ?_, rest, ?_⟩)
    · exact hardenedTo_next inv' soft (by omega) one
    · obtain ⟨b, at_w, _⟩ := (inv'.fixes.consistent.indexed lit w).mpr ⟨pos, here⟩
      have word : u64 (v.weight lit) = w := by rw [here, u64_of_nat (by omega)]
      change (v.addHardClause [lit]).mapWeight2Assum.keys = _
      rw [one.map, word, ← keys]
      exact OMap.keys_modify _ at_w
    · intro l
      have old := bucket l
      rw [List.mem_cons] at old
      change _ ↔ 0 < w ∧ (v.addHardClause [lit]).weight l = w
      rw [one.weight, reweigh]
      by_cases same : l = lit
      · subst same; rw [if_pos rfl]; simp only [apart, false_iff]; omega
      · rw [if_neg same]
        by_cases neg : l = -lit
        · subst neg
          rw [if_pos rfl]
          constructor
          · intro mem; have := old.mp (Or.inr mem); omega
          · intro eq; omega
        · rw [if_neg neg, ← old]
          simp [same]
  · rintro ⟨k, q⟩ v ⟨fixed', inv', mode, keys, _, bucket⟩
    refine ⟨fixed', inv', mode, keys, fun b here => ?_⟩
    apply List.eq_nil_iff_forall_not_mem.mpr
    intro l mem
    have := (bucket l).mpr ((inv'.fixes.consistent.indexed l w).mp ⟨b, here, mem⟩)
    simp at this

theorem hardenedTo_drop {w n : Nat} (inv : HardenedTo s assum fixed n r t)
    (empty : ∀ b, t.mapWeight2Assum.lookup w = some b → b.elems = []) :
    HardenedTo s assum fixed n r { t with mapWeight2Assum := t.mapWeight2Assum.eraseKey w } := by
  refine ⟨⟨⟨inv.fixes.consistent.machine, inv.fixes.consistent.zero, ?_⟩, inv.fixes.clauses,
    inv.fixes.heavy, inv.fixes.gone, inv.fixes.kept, inv.fixes.cost, inv.fixes.solutionCost⟩,
    inv.count, inv.assums⟩
  intro l v
  rw [show EvalMaxSAT.weight { t with mapWeight2Assum := t.mapWeight2Assum.eraseKey w } = t.weight
    from rfl, ← inv.fixes.consistent.indexed l v]
  simp only [InBucket, OMap.lookup_eraseKey]
  by_cases same : v = w
  · subst same
    simp only [if_true, reduceCtorEq, false_and, exists_false, false_iff, not_exists, not_and]
    intro b found mem
    rw [← OSet.mem_elems, empty b found] at mem
    simp at mem
  · simp [same]

end Bucket

/-- No literal is left that is as heavy as the difference. -/
def Exhausted (s t : EvalMaxSAT K) : Prop := ∀ l, 0 < t.weight l → t.weight l < s.maxCostLit

theorem bucket_of_soft {lit : Int} (consistent : Consistent s) (soft : 0 < s.weight lit) :
    ∃ w b, s.mapWeight2Assum.lookup w = some b ∧ lit ∈ b ∧ s.weight lit = (w : Int) := by
  obtain ⟨b, found, mem⟩ := (consistent.indexed lit (s.weight lit).toNat).mpr (by omega)
  exact ⟨_, b, found, mem, by omega⟩

theorem harden_spec {a : OSet Int} (consistent : Consistent s) (mode : s.isIncremental = false) :
    Wp (fun _ => True) (harden a) (fun out t => ∃ fixed,
      HardenedTo s a fixed out.1 out.2 t ∧ (EarlyExit s ∨ Exhausted s t)) s := by
  have idle : HardenedTo s a [] 0 a s :=
    ⟨fixes_refl consistent, rfl, fun l => by simp⟩
  apply wp_bind_read
  refine wp_ite (fun incremental => absurd incremental (by simp [mode])) (fun _ => ?_)
  refine wp_ite (fun none => wp_pure ⟨[], idle, Or.inl (Or.inl none)⟩) (fun _ => ?_)
  refine wp_ite (fun one => wp_pure ⟨[], idle, Or.inl (Or.inr one)⟩) (fun _ => ?_)
  refine wp_loop Nat.lt_wfRel.wf (fun _ t => t.mapWeight2Assum.size)
    (fun b t => ∃ fixed, HardenedTo s a fixed b.1 b.2 t) ?_ _ _ ⟨[], idle⟩
  rintro ⟨n, r⟩ t ⟨fixed, inv⟩
  replace inv : HardenedTo s a fixed n r t := inv
  apply wp_bind_read
  cases last : t.mapWeight2Assum.last? with
  | none =>
    refine wp_pure ⟨fixed, inv, Or.inr ?_⟩
    intro l soft
    obtain ⟨w, b, found, _⟩ := bucket_of_soft inv.fixes.consistent soft
    obtain ⟨k, c, some⟩ := OMap.last?_of_size (OMap.size_pos found)
    rw [last] at some; simp at some
  | some e =>
    obtain ⟨w, lits⟩ := e
    obtain ⟨found, greatest⟩ := OMap.last?_spec last
    refine wp_ite (fun light => wp_pure ⟨fixed, inv, Or.inr ?_⟩) (fun heavy => ?_)
    · intro l soft
      obtain ⟨v, b, at_v, _, weight⟩ := bucket_of_soft inv.fixes.consistent soft
      have := greatest v b at_v
      have : w < s.maxCostLit := light
      omega
    · apply wp_bind
      apply wp_mono (hardenLits_spec inv found (Nat.le_of_not_lt heavy))
      rintro ⟨k, q⟩ u ⟨fixed', inv', _, keys, empty⟩
      replace inv' : HardenedTo s a fixed' k q u := inv'
      obtain ⟨c, last'⟩ := OMap.last?_of_keys keys last
      have foundU := (OMap.last?_spec last').1
      apply wp_bind_read
      refine wp_ite (fun one => wp_pure ⟨fixed', inv', Or.inr ?_⟩) (fun _ => ?_)
      · intro l soft
        obtain ⟨v, b, at_v, mem, _⟩ := bucket_of_soft inv'.fixes.consistent soft
        have same : v = w := OMap.key_of_size_one one at_v foundU
        subst same
        have gone := empty b at_v
        rw [← OSet.mem_elems, gone] at mem
        simp at mem
      · have emptied := empty c foundU
        simp only [last', emptied, if_true]
        apply wp_bind
        refine wp_act trivial (wp_pure ⟨⟨fixed', hardenedTo_drop inv' empty⟩, ?_⟩)
        have less := OMap.size_eraseKey foundU
        have := OMap.size_of_keys keys
        change (u.mapWeight2Assum.eraseKey w).size < t.mapWeight2Assum.size
        omega

theorem models_kept {fixed : List Int} {m : Assignment}
    (word : s.solutionCost < 2 ^ 64) (fixes : Fixes fixed s t) (models : Models m s.solver.clauses)
    (better : s.cost + s.falsifiedWeight m < s.solutionCost) :
    Models m t.solver.clauses := by
  rw [fixes.clauses]
  refine models_append.mpr ⟨models, ?_⟩
  intro c mem
  obtain ⟨l, inFixed, rfl⟩ := List.mem_map.mp mem
  obtain ⟨soft, heavy⟩ := fixes.heavy l inFixed
  apply holds_unit.mpr
  cases value : litTrue m l with
  | true => rfl
  | false =>
    have counted := weight_le_falsified soft value
    have exact_diff : s.maxCostLit = s.solutionCost - s.cost := by
      rw [EvalMaxSAT.maxCostLit, u64_toNat (by omega) (by omega)]
      omega
    rw [exact_diff] at heavy
    omega

/-- Hardening is safe and stops, from any state with a consistent weight index. -/
theorem harden_safe {b : OSet Int} (consistent : Consistent s) (mode : s.isIncremental = false)
    (word : s.solutionCost < 2 ^ 64) :
    ∃ tr n r t, ∃ fixed : List Int, (harden b).Ends s tr (.done (n, r)) t ∧ n = fixed.length ∧
      t.solver.clauses = s.solver.clauses ++ fixed.map (fun l => [l]) ∧
      (∀ m, Models m s.solver.clauses →
        s.cost + s.falsifiedWeight m < s.solutionCost → Models m t.solver.clauses) ∧
      (∀ l ∈ fixed, 0 < s.weight l ∧ (u64 ((s.solutionCost : Int) - s.cost) : Int) ≤ s.weight l ∧
        t.weight l = 0 ∧ (∀ w, ¬ InBucket t.mapWeight2Assum w l) ∧ l ∉ r) ∧
      (∀ l, l ∉ fixed → -l ∉ fixed → t.weight l = s.weight l) ∧ t.cost = s.cost ∧
      (s.cost < s.solutionCost → ¬ EarlyExit s →
        ∀ l, 0 < t.weight l → t.weight l < (s.solutionCost : Int) - s.cost) := by
  obtain ⟨tr, ⟨n, r⟩, t, ends, _, fixed, inv, final⟩ := harden_spec (a := b) consistent mode
  replace inv : HardenedTo s b fixed n r t := inv
  refine ⟨tr, n, r, t, fixed, ends, inv.count, inv.fixes.clauses, ?_, ?_, inv.fixes.kept,
    inv.fixes.cost, ?_⟩
  · intro m models better
    exact models_kept word inv.fixes models better
  · intro l mem
    obtain ⟨soft, heavy⟩ := inv.fixes.heavy l mem
    have gone := inv.fixes.gone l mem
    refine ⟨soft, heavy, gone, fun w inBucket => ?_, fun inR => ?_⟩
    · have := (inv.fixes.consistent.indexed l w).mp inBucket
      omega
    · exact ((inv.assums l).mp inR).2 mem
  · intro below notEarly l soft
    have left := (final.resolve_left notEarly) l soft
    rw [EvalMaxSAT.maxCostLit, u64_toNat (by omega) (by omega)] at left
    omega

theorem consistent_of_wf {ws : List Int} (wf : Wf ws s) : Consistent s :=
  ⟨fun i => by have := wf.poids_bounded i; omega, wf.zero, wf.indexed⟩

def heavyAndLight : EvalMaxSAT Unit :=
  { ((((fresh ()).newVar.2).newVar.2).addWeight 1 5).addWeight (-2) 2 with solutionCost := 4 }

theorem wf_heavyAndLight : Wf [] heavyAndLight := by
  have one := between_of_apply (s := fresh ()) (between_fresh ()) (u := .newVar) trivial trivial rfl
  have two := between_of_apply one (u := .newVar) trivial trivial rfl
  have three := between_of_apply two (u := .addWeight 1 5) (by decide) (by decide) rfl
  have four := between_of_apply three (u := .addWeight (-2) 2) (by decide) (by decide) rfl
  exact wf_congr four.sane.wf rfl rfl rfl rfl rfl rfl rfl

theorem harden_safe_heavy_and_light : ∃ tr n r t, ∃ fixed : List Int,
    (harden OSet.empty).Ends heavyAndLight tr (.done (n, r)) t ∧ n = fixed.length ∧
      t.solver.clauses = heavyAndLight.solver.clauses ++ fixed.map (fun l => [l]) ∧ t.cost = 0 := by
  obtain ⟨tr, n, r, t, fixed, ends, count, clauses, _, _, _, cost, _⟩ :=
    harden_safe (b := OSet.empty) (consistent_of_wf wf_heavyAndLight) rfl (by decide)
  exact ⟨tr, n, r, t, fixed, ends, count, clauses, cost⟩

end EvalMaxSat
