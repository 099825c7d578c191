import EvalMaxSat.Cores

/-!
One round of `processAtMostOne`: literals of which at most one can be true pay for all
but one of themselves, and their clause becomes soft.
-/
namespace EvalMaxSat
open Literals OrderedContainers LawfulSink EvalMaxSAT

variable {K : Type} {ws : List Int} {s t : EvalMaxSAT K} {w : Int}

/-- No model makes two of the literals true. -/
def Exclusive (f : Cnf) (c : Clause) : Prop :=
  ∀ a ∈ c, ∀ b ∈ c, a ≠ b → Inconsistent f [a, b]

theorem exclusive_sub {f g : Cnf} {c d : Clause} (sub : f ⊆ g) (fewer : d ⊆ c)
    (h : Exclusive f c) : Exclusive g d :=
  fun a memA b memB ne => inconsistent_mono sub (h a (fewer memA) b (fewer memB) ne)

theorem falsified_of_exclusive {f : Cnf} {c : Clause} {m : Assignment} (h : Exclusive f c)
    (nodup : c.Nodup) (models : Models m f) : c.length ≤ c.countP (falsified m) + 1 := by
  induction c with
  | nil => simp
  | cons a c ih =>
    obtain ⟨apart, nodup⟩ := List.nodup_cons.mp nodup
    have rest := ih (exclusive_sub (List.Subset.refl _) (List.subset_cons_self _ _) h) nodup
    rw [List.countP_cons, List.length_cons]
    cases value : litTrue m a with
    | false => simp only [falsified, value, Bool.not_false, if_true] at rest ⊢; omega
    | true =>
      have all : c.countP (falsified m) = c.length := by
        apply List.countP_eq_length.mpr
        intro b mem
        have ne : a ≠ b := by rintro rfl; exact apart mem
        have pair := h a (by simp) b (by simp [mem]) ne m models
        cases other : litTrue m b with
        | false => simp [falsified, other]
        | true =>
          exfalso
          apply pair
          intro l mem
          simp only [List.mem_cons, List.not_mem_nil, or_false] at mem
          rcases mem with same | same
          · rw [same]; exact value
          · rw [same]; exact other
      omega

theorem swapRemove_append {α : Type} (xs ys : List α) (x : α) :
    ∃ zs, swapRemove (xs ++ x :: ys) xs.length = xs ++ zs ∧ zs.Perm ys := by
  rcases List.eq_nil_or_concat ys with empty | ⟨front, last, eq⟩
  · subst empty
    refine ⟨[], ?_, List.Perm.refl _⟩
    simp [swapRemove]
  · subst eq
    refine ⟨last :: front, ?_, ?_⟩
    · have tail : (xs ++ x :: (front ++ [last])).getLast? = some last := by
        rw [← List.cons_append, ← List.append_assoc, List.getLast?_concat]
      rw [List.concat_eq_append, swapRemove, tail]
      simp only
      rw [List.set_append_right _ _ (Nat.le_refl _), Nat.sub_self, List.set_cons_zero,
        ← List.cons_append, ← List.append_assoc, List.dropLast_concat]
    · rw [List.concat_eq_append]
      exact (List.perm_append_singleton last front).symm

theorem swapRemove_perm {α : Type} {xs : List α} {i : Nat} {x : α} (here : xs[i]? = some x) :
    ∃ pre post, xs = pre ++ x :: post ∧ (swapRemove xs i).Perm (pre ++ post) := by
  obtain ⟨inside, eq⟩ := List.getElem?_eq_some_iff.mp here
  have shape : xs = xs.take i ++ x :: xs.drop (i + 1) := by
    rw [← eq, List.getElem_cons_drop, List.take_append_drop]
  obtain ⟨zs, removed, perm⟩ := swapRemove_append (xs.take i) (xs.drop (i + 1)) x
  rw [← shape, List.length_take_of_le (Nat.le_of_lt inside)] at removed
  exact ⟨_, _, shape, by rw [removed]; exact perm.append_left _⟩

/-- `t` is `s` after `w` was taken from each literal of `c`, cardinalities moving on. -/
structure Peeled (ws : List Int) (w : Int) (c : Clause) (s t : EvalMaxSAT K) : Prop where
  wf : Wf ws t
  sim : Sim (fun γ => w.toNat * c.countP γ) s t
  outside : t.outside = s.outside
  taken : ∀ l ∈ c, s.weight l ≠ w → t.weight l = s.weight l - w
  kept : ∀ l : Int, l ∉ c → -l ∉ c → s.weight l ≠ 0 → t.weight l = s.weight l
  steady : Steady s t
  climbs : Climbs 0 s t

theorem local_count {c : Clause} {n k : Nat} (within : ∀ l ∈ c, l.natAbs ≤ n) :
    Local n (fun γ => k * c.countP γ) := by
  intro m j agree
  simp only
  congr 1
  apply List.countP_congr
  intro l mem
  rw [falsified_agree agree (within l mem)]

theorem peeled_cons {c : Clause} {lit : Int} {u : EvalMaxSAT K} (wf : Wf ws s)
    (first : Peeled ws w [lit] s u) (rest : Peeled ws w c u t) (pos : 0 < w)
    (soft : ∀ l ∈ lit :: c, w ≤ s.weight l) (nodup : (lit :: c).Nodup) :
    Peeled ws w (lit :: c) s t := by
  obtain ⟨apart, _⟩ := List.nodup_cons.mp nodup
  have inside : ∀ l ∈ lit :: c, l.natAbs ≤ s.solver.nVar := fun l mem =>
    (wf.weighted_inside (by have := soft l mem; omega : s.weight l ≠ 0)).2
  have noOpposite : ∀ a ∈ lit :: c, ∀ b ∈ lit :: c, a ≠ -b := by
    intro a memA b memB eq
    have := soft a memA
    have := soft b memB
    have := wf.weight_neg b
    rw [← eq] at this
    omega
  have same : ∀ l ∈ c, u.weight l = s.weight l := by
    intro l mem
    apply first.kept
    · simp only [List.mem_singleton]; rintro rfl; exact apart mem
    · simp only [List.mem_singleton]
      intro eq
      exact noOpposite lit (by simp) l (by simp [mem]) eq.symm
    · have := soft l (by simp [mem]); omega
  have still : ∀ l, s.weight l = 0 → u.weight l ≠ 0 → t.weight l = u.weight l := by
    intro l unweighted weighted
    apply rest.kept l _ _ weighted
    · intro mem; have := soft l (by simp [mem]); omega
    · intro mem
      have := soft (-l) (by simp [mem])
      have := wf.weight_neg l
      omega
  refine ⟨rest.wf, ?_, rest.outside.trans first.outside, ?_, ?_,
    steady_trans first.steady rest.steady first.sim.vars rest.sim.plain,
    climbs_trans wf first.wf rest.wf first.climbs rest.climbs still⟩
  · refine simOn_congr (sim_trans first.sim rest.sim
      (local_count fun l mem => inside l (by simp [mem]))) ?_
    intro γ
    have split : (lit :: c).countP γ = [lit].countP γ + c.countP γ := by
      rw [← List.countP_append]; rfl
    rw [split, Nat.mul_add]
  · intro l mem more
    rcases List.mem_cons.mp mem with here | there
    · subst here
      have once := first.taken l (by simp) more
      rw [rest.kept l apart ?_ (by omega), once]
      intro mem
      exact noOpposite l (by simp) (-l) (by simp [mem]) (by omega)
    · rw [rest.taken l there (by rw [same l there]; exact more), same l there]
  · intro l notIn notNeg weighted
    have mid := first.kept l (by simp_all) (by simp_all) weighted
    rw [rest.kept l (by simp_all) (by simp_all) (by rw [mid]; exact weighted), mid]

theorem peel_part {lit : Int} (wf : Wf ws s) (pos : 0 < w) (lt : w < s.weight lit) :
    Peeled ws w [lit] s (s.putWeight lit (s.weight lit - w)
      ((s.mapWeight2Assum.eraseLit (u64 (s.weight lit)) lit).insertLit
        (u64 (s.weight lit - w)) lit)) := by
  have weight := take_weight (m := (s.mapWeight2Assum.eraseLit (u64 (s.weight lit)) lit).insertLit
    (u64 (s.weight lit - w)) lit) wf pos (by omega : w ≤ s.weight lit)
  obtain ⟨nonzero, bound⟩ := wf.weighted_inside (by omega : s.weight lit ≠ 0)
  refine ⟨take_part wf pos lt, ?_, rfl, ?_, ?_, ?_,
    climbs_lower wf (by omega) (by omega) nonzero bound⟩
  · refine sim_of_owed rfl rfl rfl fun γ => ?_
    have owed := take_owed (m := (s.mapWeight2Assum.eraseLit (u64 (s.weight lit)) lit).insertLit
      (u64 (s.weight lit - w)) lit) wf pos (by omega : w ≤ s.weight lit) γ
    cases value : γ lit <;> simp [value] at owed ⊢ <;> omega
  · intro l mem _
    simp only [List.mem_singleton] at mem
    subst mem
    rw [weight, reweigh, if_pos rfl]
  · intro l notIn notNeg _
    simp only [List.mem_singleton] at notIn notNeg
    rw [weight, reweigh, if_neg notIn, if_neg (by omega)]
  · intro l _ _ nonneg
    have opposite := wf.weight_neg lit
    rw [weight, reweigh]
    split
    · omega
    · split
      · rename_i eq; subst eq; omega
      · exact nonneg

theorem peel_whole {lit : Int} (wf : Wf ws s) (pos : 0 < w) (eq : s.weight lit = w) :
    Peeled ws w [lit] s (EvalMaxSAT.relax lit (s.putWeight lit 0
      (s.mapWeight2Assum.eraseLit (u64 (s.weight lit)) lit))).2 := by
  have whole := take_all wf (by omega : 0 < s.weight lit)
  have weight := take_weight (m := s.mapWeight2Assum.eraseLit (u64 (s.weight lit)) lit) wf pos
    (by omega : w ≤ s.weight lit)
  have owed := take_owed (m := s.mapWeight2Assum.eraseLit (u64 (s.weight lit)) lit) wf pos
    (by omega : w ≤ s.weight lit)
  rw [eq, Int.sub_self] at weight owed
  rw [eq] at whole ⊢
  have taken : Sim (fun γ => w.toNat * [lit].countP γ) s
      (s.putWeight lit 0 (s.mapWeight2Assum.eraseLit (u64 w) lit)) :=
    sim_of_owed rfl rfl rfl fun γ => by
      have := owed γ
      cases value : γ lit <;> simp [value] at this ⊢ <;> omega
  have kept : ∀ l : Int, l ∉ [lit] → -l ∉ [lit] → s.weight l ≠ 0 →
      (s.putWeight lit 0 (s.mapWeight2Assum.eraseLit (u64 w) lit)).weight l = s.weight l := by
    intro l notIn notNeg _
    simp only [List.mem_singleton] at notIn notNeg
    rw [weight, reweigh, if_neg notIn, if_neg (by omega)]
  have steady : Steady s (s.putWeight lit 0 (s.mapWeight2Assum.eraseLit (u64 w) lit)) := by
    intro l _ _ nonneg
    rw [weight, reweigh]
    split
    · exact Int.le_refl _
    · split
      · exact Int.le_refl _
      · exact nonneg
  obtain ⟨nonzero, bound⟩ := wf.weighted_inside (by omega : s.weight lit ≠ 0)
  have fallen : Climbs 0 s (s.putWeight lit 0 (s.mapWeight2Assum.eraseLit (u64 w) lit)) :=
    climbs_lower wf (Int.le_refl 0) (by omega) nonzero bound
  cases entry : s.cardOf lit.natAbs with
  | none =>
    rw [entry] at whole
    rw [relax_none (by exact entry)]
    refine ⟨whole, taken, rfl, ?_, kept, steady, fallen⟩
    intro l mem more
    simp only [List.mem_singleton] at mem
    subst mem
    exact absurd eq more
  | some e =>
    rw [entry] at whole
    simp only [Option.isSome_some, if_true] at whole
    obtain ⟨wf', sim, gives, outside, climbs⟩ := relax_spec whole
    refine ⟨wf', simOn_congr (sim_trans taken sim (fun _ _ _ => rfl)) (fun γ => rfl), outside, ?_, ?_,
      steady_trans steady (steady_gives gives) (Nat.le_refl _) sim.plain,
      climbs_trans wf whole wf' fallen climbs fun l _ weighted => gives_kept whole gives weighted⟩
    · intro l mem more
      simp only [List.mem_singleton] at mem
      subst mem
      exact absurd eq more
    · intro l notIn notNeg weighted
      have same := kept l notIn notNeg weighted
      rw [gives_kept whole gives (by rw [same]; exact weighted), same]

theorem peel_zero {lit : Int} {fuel : Nat} {pre post : Clause} (wf : Wf ws s) (pos : 0 < w)
    (eq : s.weight lit = w) :
    peel w (fuel + 1) pre.length (pre ++ lit :: post) s =
      peel w fuel pre.length (swapRemove (pre ++ lit :: post) pre.length)
        (EvalMaxSAT.relax lit (s.putWeight lit 0
          (s.mapWeight2Assum.eraseLit (u64 (s.weight lit)) lit))).2 := by
  have weight := take_weight (m := s.mapWeight2Assum.eraseLit (u64 (s.weight lit)) lit) wf pos
    (by omega : w ≤ s.weight lit)
  have taken := take_eq wf pos (by omega : w ≤ s.weight lit)
  have zero : s.weight lit - w = 0 := by omega
  rw [zero] at weight taken
  have read := congrFun weight lit
  rw [reweigh, if_pos rfl] at read
  have found : (pre ++ lit :: post)[pre.length]? = some lit := by simp
  simp only [peel, found, taken]
  exact if_pos read

theorem peel_nonzero {lit : Int} {fuel : Nat} {pre post : Clause} (wf : Wf ws s) (pos : 0 < w)
    (lt : w < s.weight lit) :
    peel w (fuel + 1) pre.length (pre ++ lit :: post) s =
      peel w fuel (pre.length + 1) (pre ++ lit :: post) (s.putWeight lit (s.weight lit - w)
        ((s.mapWeight2Assum.eraseLit (u64 (s.weight lit)) lit).insertLit
          (u64 (s.weight lit - w)) lit)) := by
  have weight := take_weight (m := s.mapWeight2Assum.eraseLit (u64 (s.weight lit)) lit) wf pos
    (by omega : w ≤ s.weight lit)
  have taken := take_eq wf pos (by omega : w ≤ s.weight lit)
  have read := congrFun weight lit
  rw [reweigh, if_pos rfl] at read
  have found : (pre ++ lit :: post)[pre.length]? = some lit := by simp
  simp only [peel, found, taken]
  refine (if_neg ?_).trans ?_
  · intro zero
    have : s.weight lit - w = 0 := read.symm.trans zero
    omega
  · have bucket : u64 (EvalMaxSAT.weight { s with
        mapWeight2Assum := s.mapWeight2Assum.eraseLit (u64 (s.weight lit)) lit
        poids := s.poids.set lit (s.weight lit - w) } lit) = u64 (s.weight lit - w) := by
      exact congrArg u64 read
    rw [bucket]
    rfl

theorem peel_spec (fuel : Nat) {s : EvalMaxSAT K} {p todo : Clause} (wf : Wf ws s)
    (pos : 0 < w) (soft : ∀ l ∈ todo, w ≤ s.weight l) (nodup : todo.Nodup)
    (enough : todo.length ≤ fuel) :
    Peeled ws w todo s (peel w fuel p.length (p ++ todo) s).2 ∧
      (peel w fuel p.length (p ++ todo) s).1.Perm
        (p ++ todo.filter (fun l => s.weight l ≠ w)) := by
  induction fuel generalizing s p todo with
  | zero =>
    have empty : todo = [] := List.length_eq_zero_iff.mp (by omega)
    subst empty
    refine ⟨⟨wf, ?_, rfl, by simp, fun _ _ _ _ => rfl, fun _ _ _ nonneg => nonneg,
      climbs_refl wf⟩, by simp [peel]⟩
    exact simOn_congr (sim_refl s) (fun γ => by simp)
  | succ fuel ih =>
    cases todo with
    | nil =>
      have none : (p ++ [])[p.length]? = none := by simp
      simp only [peel, none]
      refine ⟨⟨wf, ?_, rfl, by simp, fun _ _ _ _ => rfl, fun _ _ _ nonneg => nonneg,
        climbs_refl wf⟩, by simp⟩
      exact simOn_congr (sim_refl s) (fun γ => by simp)
    | cons lit post =>
      obtain ⟨apart, nodup'⟩ := List.nodup_cons.mp nodup
      have le := soft lit (by simp)
      have noOpposite : ∀ l ∈ post, -l ≠ lit := by
        rintro l mem eq
        have := soft l (by simp [mem])
        have := wf.weight_neg l
        rw [eq] at this
        omega
      have stay : ∀ {u : EvalMaxSAT K}, Peeled ws w [lit] s u → ∀ l ∈ post,
          u.weight l = s.weight l := by
        intro u peeled l mem
        apply peeled.kept
        · simp only [List.mem_singleton]; rintro rfl; exact apart mem
        · simp only [List.mem_singleton]; exact noOpposite l mem
        · have := soft l (by simp [mem]); omega
      have sameFilter : ∀ {u : EvalMaxSAT K}, Peeled ws w [lit] s u →
          post.filter (fun l => u.weight l ≠ w) = post.filter (fun l => s.weight l ≠ w) := by
        intro u peeled
        apply List.filter_congr
        intro l mem
        rw [stay peeled l mem]
      by_cases eq : s.weight lit = w
      · have one := peel_whole wf pos eq
        obtain ⟨zs, removed, perm⟩ := swapRemove_append p post lit
        rw [peel_zero wf pos eq, removed]
        have soft' : ∀ l ∈ zs, w ≤ (EvalMaxSAT.relax lit (s.putWeight lit 0
            (s.mapWeight2Assum.eraseLit (u64 (s.weight lit)) lit))).2.weight l := by
          intro l mem
          rw [stay one l (perm.subset mem)]
          exact soft l (by simp [perm.subset mem])
        obtain ⟨rest, left⟩ := ih (p := p) one.wf soft' (perm.symm.nodup nodup')
          (by rw [perm.length_eq]; simp at enough; omega)
        have rest' : Peeled ws w post _ _ := ⟨rest.wf,
          simOn_congr rest.sim (fun γ => by rw [perm.countP_eq]), rest.outside,
          fun l mem => rest.taken l (perm.symm.subset mem),
          fun l notIn notNeg => rest.kept l (fun mem => notIn (perm.subset mem))
            (fun mem => notNeg (perm.subset mem)), rest.steady, rest.climbs⟩
        refine ⟨peeled_cons wf one rest' pos soft nodup, left.trans ?_⟩
        have dropped : (lit :: post).filter (fun l => s.weight l ≠ w) =
            post.filter (fun l => s.weight l ≠ w) := by
          rw [List.filter_cons_of_neg (by simp [eq])]
        rw [dropped, ← sameFilter one]
        exact (perm.filter _).append_left p
      · have one := peel_part wf pos (by omega : w < s.weight lit)
        rw [peel_nonzero wf pos (by omega)]
        have longer : p ++ lit :: post = (p ++ [lit]) ++ post := by simp
        have index : p.length + 1 = (p ++ [lit]).length := by simp
        rw [longer, index]
        obtain ⟨rest, left⟩ := ih (p := p ++ [lit]) one.wf
          (fun l mem => by rw [stay one l mem]; exact soft l (by simp [mem])) nodup'
          (by simp at enough; omega)
        refine ⟨peeled_cons wf one rest pos soft nodup, left.trans ?_⟩
        have kept : (lit :: post).filter (fun l => s.weight l ≠ w) =
            lit :: post.filter (fun l => s.weight l ≠ w) := by
          rw [List.filter_cons_of_pos (by simp [eq])]
        rw [kept, sameFilter one]
        simp

/-- Paying for all but one literal of an exclusive clause, and making the clause soft. -/
theorem sim_exclusive {c : Clause} {u : EvalMaxSAT K} {w : Nat}
    (several : 2 ≤ c.length) (nodup : c.Nodup) (exclusive : Exclusive s.solver.clauses c)
    (within : Within s.solver.nVar c) (peeled : Sim (fun γ => w * c.countP γ) s u)
    (adds : Adds c w 0 u t) (potential : t.potential = u.potential + w) :
    Sim (fun _ => w * (c.length - 1)) s t := by
  have whole : w * c.length = w * (c.length - 1) + w := by
    rw [← Nat.mul_succ]; congr 1; omega
  have arith : ∀ {m : Assignment}, Models m s.solver.clauses →
      w * c.countP (falsified m) = w * (c.length - 1) + penalty c w m := by
    intro m models
    have most := falsified_of_exclusive exclusive nodup models
    have holds : Holds m c ↔ c.countP (falsified m) ≠ c.length := by
      rw [ne_eq, List.countP_eq_length]
      constructor
      · rintro ⟨l, mem, value⟩ all
        have := all l mem
        simp [falsified, value] at this
      · intro notAll
        by_contra none
        apply notAll
        intro l mem
        cases value : litTrue m l with
        | false => simp [falsified, value]
        | true => exact absurd ⟨l, mem, value⟩ none
    have le := List.countP_le_length (p := falsified m) (l := c)
    by_cases sat : Holds m c
    · have : c.countP (falsified m) = c.length - 1 := by have := holds.mp sat; omega
      rw [this, penalty, if_pos sat, Nat.add_zero]
    · have : c.countP (falsified m) = c.length := by
        by_contra ne; exact sat (holds.mpr ne)
      rw [this, penalty, if_neg sat, whole]
  refine ⟨peeled.vars.trans adds.vars, List.Subset.trans peeled.clauses adds.clauses,
    fun v bound => (adds.plain v (bound.trans peeled.vars)).trans (peeled.plain v bound), ?_, ?_, ?_⟩
  · have := peeled.potential
    have all : c.countP everyLit = c.length := by simp [everyLit]
    rw [all, whole] at this
    omega
  · intro m models canonical _
    obtain ⟨k, agree, models', canonical', owed⟩ := peeled.forward m models canonical trivial
    obtain ⟨j, agree', models'', canonical'', owed'⟩ := adds.forward k models' canonical'
    refine ⟨j, agree_trans peeled.vars agree agree', models'', canonical'', ?_⟩
    have := arith models
    rw [penalty_agree agree within] at owed'
    omega
  · intro m models
    have models' : Models m u.solver.clauses := fun d mem => models d (adds.clauses mem)
    have models'' : Models m s.solver.clauses := fun d mem => models' d (peeled.clauses mem)
    have := peeled.backward m models'
    have := adds.backward m models
    have := arith models''
    omega

structure AmoSpec (ws : List Int) (c : Clause) (s t : EvalMaxSAT K) (rest : Clause) (var : Int) :
    Prop where
  wf : Wf ws t
  paid : ∃ d, 0 < d ∧ Rewrites d s t
  besides : t.besides = s.besides
  fewer : rest.length < c.length
  sub : rest ⊆ c
  nodup : rest.Nodup
  soft : ∀ l ∈ rest, 0 < t.weight l
  fresh : var = ((t.solver.nVar : Nat) : Int) ∧ s.solver.nVar < t.solver.nVar
  softVar : 0 < t.weight var
  kept : ∀ l : Int, l ∉ c → -l ∉ c → s.weight l ≠ 0 → t.weight l = s.weight l
  steady : Steady s t
  climbs : Climbs 0 s t

theorem addSoft_relaxed {c : Clause} {w : Nat} (several : 2 ≤ c.length) (pos : 0 < w)
    (start : s.startSolve = true) : s.addClause c (some (w : Int)) =
      some (((s.solver.nVar + 1 : Nat) : Int), s.relaxed c w) := by
  simp only [EvalMaxSAT.addClause]
  rw [if_neg (by omega), if_neg (by simp [start])]
  match c, several with
  | a :: b :: rest, _ =>
    simp only [EvalMaxSAT.addSoftClause]
    rw [if_pos (by omega)]
    rfl

theorem amoRound_eq {c rest : Clause} {w var : Int} {u t : EvalMaxSAT K}
    (least : minWeightFrom (s.weight (c.headD 0)) s c.tail = w)
    (peeled : peel w c.length 0 c s = (rest, u))
    (added : (u.withCost (u64 (u.cost + w * ((c.length : Int) - 1)))).addClause c (some w) =
      some (var, t)) : amoRound c s = (some (rest, var), t) := by
  rw [EvalMaxSAT.withCost] at added
  simp only [amoRound, least, peeled]
  rw [added]

section Round
variable {c rest : Clause} {w : Nat} {u : EvalMaxSAT K}

theorem lightest_exists (several : 2 ≤ c.length) (soft : ∀ l ∈ c, 0 < s.weight l) :
    ∃ w : Nat, minWeightFrom (s.weight (c.headD 0)) s c.tail = (w : Int) ∧ 0 < w ∧
      (∀ l ∈ c, (w : Int) ≤ s.weight l) ∧ ∃ l ∈ c, s.weight l = w := by
  obtain ⟨le, all, one⟩ := minWeightFrom_spec (s.weight (c.headD 0)) s c.tail
  obtain ⟨head, tail, shape⟩ : ∃ head tail, c = head :: tail := by
    cases c with
    | nil => simp at several
    | cons head tail => exact ⟨head, tail, rfl⟩
  rw [shape] at le all one ⊢
  simp only [List.headD_cons, List.tail_cons] at le all one ⊢
  have pos : 0 < minWeightFrom (s.weight head) s tail := by
    rcases one with same | ⟨l, mem, same⟩
    · rw [same]; exact soft head (by simp [shape])
    · rw [same]; exact soft l (by simp [shape, mem])
  refine ⟨(minWeightFrom (s.weight head) s tail).toNat, by omega, by omega, ?_, ?_⟩
  · intro l mem
    rcases List.mem_cons.mp mem with same | mem
    · subst same; omega
    · have := all l mem; omega
  · rcases one with same | ⟨l, mem, same⟩
    · exact ⟨head, by simp, by omega⟩
    · exact ⟨l, by simp [mem], by omega⟩

theorem relaxed_count (several : 2 ≤ c.length) (within : Within u.solver.nVar c) :
    (u.relaxed c w).solver.nVar = u.solver.nVar + 1 := by
  rw [(relaxed_grow (w := w) several within).2]; rfl

theorem relaxed_outside (several : 2 ≤ c.length) (within : Within u.solver.nVar c) :
    (u.relaxed c w).outside = u.outside := by
  rw [(relaxed_grow (w := w) several within).2]; rfl

theorem relaxed_old (weights : (u.relaxed c w).weight =
    reweigh u.weight ((u.solver.nVar + 1 : Nat) : Int) w) {l : Int}
    (bound : l.natAbs ≤ u.solver.nVar) : (u.relaxed c w).weight l = u.weight l := by
  rw [weights, reweigh, if_neg (by rintro rfl; omega), if_neg (by rintro rfl; omega)]

theorem relaxed_new (weights : (u.relaxed c w).weight =
    reweigh u.weight ((u.solver.nVar + 1 : Nat) : Int) w) :
    (u.relaxed c w).weight ((u.solver.nVar + 1 : Nat) : Int) = w := by
  rw [weights, reweigh, if_pos rfl]

theorem amoSpec_round (wf : Wf ws s) (several : 2 ≤ c.length) (nodup : c.Nodup)
    (exclusive : Exclusive s.solver.clauses c) (inside : Within s.solver.nVar c) (pos : 0 < w)
    (heavy : ∀ l ∈ c, (w : Int) ≤ s.weight l) (attained : ∃ l ∈ c, s.weight l = w)
    (peeled : Peeled ws w c s u) (left : rest.Perm (c.filter fun l => s.weight l ≠ w)) :
    AmoSpec ws c s ((u.withCost (u64 (u.cost + w * ((c.length : Int) - 1)))).relaxed c w) rest
      ((u.solver.nVar + 1 : Nat) : Int) := by
  obtain ⟨lightest, inC, attained⟩ := attained
  generalize paid_eq : u64 ((u.cost : Int) + w * ((c.length : Int) - 1)) = paid
  have outside := peeled.outside
  have wfPaid := wf_withCost peeled.wf paid
  have grown := peeled.sim.vars
  have within : Within (u.withCost paid).solver.nVar c := fun l mem =>
    ⟨(inside l mem).1, (inside l mem).2.trans grown⟩
  have small : w < 2 ^ 63 := by
    have := wf.weight_range lightest
    omega
  obtain ⟨wfT, adds, potential, weights, climbs⟩ := relaxed_spec wfPaid several within pos small
  have solver : ((u.withCost paid).relaxed c w).solver.nVar = u.solver.nVar + 1 :=
    relaxed_count several within
  have same : ((u.withCost paid).relaxed c w).outside = (paid, s.besides) :=
    (relaxed_outside several within).trans (congrArg (fun o => (paid, o.2)) outside)
  have besides : ((u.withCost paid).relaxed c w).besides = s.besides := congrArg Prod.snd same
  have old : ∀ l : Int, l.natAbs ≤ u.solver.nVar →
      ((u.withCost paid).relaxed c w).weight l = u.weight l := fun l bound =>
    relaxed_old weights bound
  have fresh : ∀ l : Int, u.weight l ≠ 0 →
      ((u.withCost paid).relaxed c w).weight l = u.weight l := fun l weighted =>
    old l (peeled.wf.weighted_inside weighted).2
  refine ⟨wfT, ⟨w * (c.length - 1), Nat.mul_pos pos (by omega), ?_, ?_, ?_⟩, besides, ?_, ?_, ?_, ?_,
    ⟨by rw [solver], by rw [solver]; omega⟩, ?_, ?_, ?_, climbs_trans wf wfPaid wfT
      (climbs_congr peeled.climbs rfl rfl rfl rfl rfl rfl) climbs fun l _ weighted => fresh l weighted⟩
  · have paidSim := simOn_withCost peeled.sim paid
    rw [Int.toNat_natCast] at paidSim
    exact sim_exclusive several nodup exclusive inside paidSim adds potential
  · have kept : ((u.withCost paid).relaxed c w).cost = paid := congrArg Prod.fst same
    have before : u.cost = s.cost := congrArg Prod.fst outside
    rw [kept, ← paid_eq, before]
    congr 1
    have : ((c.length - 1 : Nat) : Int) = (c.length : Int) - 1 := by omega
    rw [Nat.cast_mul, this]
  · exact congrArg (fun o => o.2.2) besides
  · rw [left.length_eq]
    exact List.length_filter_lt_length_iff_exists.mpr ⟨lightest, inC, by simp [attained]⟩
  · intro l mem
    exact (List.mem_filter.mp (left.subset mem)).1
  · exact left.symm.nodup (nodup.filter _)
  · intro l mem
    obtain ⟨inC, ne⟩ := List.mem_filter.mp (left.subset mem)
    have taken := peeled.taken l inC (by simpa using ne)
    have more : s.weight l ≠ w := by simpa using ne
    have := heavy l inC
    rw [fresh l (by omega)]
    omega
  · have new : ((u.withCost paid).relaxed c w).weight ((u.solver.nVar + 1 : Nat) : Int) = w :=
      relaxed_new weights
    omega
  · intro l notIn notNeg weighted
    have mid := peeled.kept l notIn notNeg weighted
    rw [fresh l (by rw [mid]; exact weighted), mid]
  · have raised : Steady u ((u.withCost paid).relaxed c w) := by
      intro l bound _ nonneg
      rw [old l bound]
      exact nonneg
    exact steady_trans peeled.steady raised peeled.sim.vars adds.plain

theorem amoRound_spec (wf : Wf ws s) (start : s.startSolve = true)
    (several : 2 ≤ c.length) (nodup : c.Nodup) (soft : ∀ l ∈ c, 0 < s.weight l)
    (exclusive : Exclusive s.solver.clauses c) :
    ∃ rest var, (amoRound c s).1 = some (rest, var) ∧ AmoSpec ws c s (amoRound c s).2 rest var := by
  have inside : Within s.solver.nVar c := fun l mem =>
    wf.weighted_inside (by have := soft l mem; omega : s.weight l ≠ 0)
  obtain ⟨w, least, pos, heavy, attained⟩ := lightest_exists several soft
  obtain ⟨peeled, left⟩ := peel_spec (p := []) c.length wf (by omega : 0 < (w : Int)) heavy nodup
    (Nat.le_refl _)
  rw [List.nil_append, List.length_nil] at peeled left
  rw [List.nil_append] at left
  obtain ⟨⟨rest, u⟩, out⟩ : ∃ out, peel (w : Int) c.length 0 c s = out := ⟨_, rfl⟩
  rw [out] at peeled left
  have started : u.startSolve = true := by
    have same : u.startSolve = s.startSolve := congrArg (fun o => o.2.2.2.1) peeled.outside
    rw [same]; exact start
  have round := amoRound_eq least out (addSoft_relaxed several pos (by exact started))
  refine ⟨rest, _, congrArg Prod.fst round, ?_⟩
  rw [round]
  exact amoSpec_round wf several nodup exclusive inside pos heavy attained peeled left

end Round

end EvalMaxSat
