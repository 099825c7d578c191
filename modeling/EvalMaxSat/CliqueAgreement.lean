import EvalMaxSat.CliqueAnswers
import EvalMaxSat.ReferenceBackEnd
import Mathlib.Order.Bounds.Basic

/-!
`expand` is `expand_dyn` without the sorting and without the limit: where the limit is not
met, both take the same branches and end with the same clique.
-/
namespace EvalMaxSat
namespace Maxclique
open CheckedRuns CliqueBounds

variable {host : Platform} {conn : Nat → Nat → Bool} {n : Nat} {maxStep : Int}
  {R : Vertices} {m t : Search} {inner inner' : Vertices → Search → Option Search}

section Steps

theorem color_sort_yields : Yields (color_sort conn n m R) fun r => ∃ C, r.2 = { m with C := C } := by
  unfold color_sort
  apply yields_bind
  intro r _
  exact yields_some ⟨r.2, rfl⟩

theorem inc_yields : Yields m.inc_i1 fun t => ∃ S, t = { m with S := S } := by
  unfold Search.inc_i1
  apply yields_bind
  intro here _
  exact yields_some ⟨_, rfl⟩

theorem improve_yields : Yields m.improve fun t => ∃ QMAX, t = { m with QMAX := QMAX } := by
  unfold Search.improve
  apply yields_ite
  · intro _
    apply yields_bind
    intro QMAX _
    exact yields_some ⟨QMAX, rfl⟩
  · intro _
    exact yields_some ⟨m.QMAX, rfl⟩

theorem pushQ_yields {v : Nat} : Yields (m.pushQ v) fun t => ∃ Q, t = { m with Q := Q } := by
  unfold Search.pushQ
  apply yields_bind
  intro Q _
  exact yields_some ⟨Q, rfl⟩

theorem enter_yields : Yields m.enter fun t => ∃ S, t = { m with S := S } := by
  unfold Search.enter
  apply yields_ite
  · intro _ t run
    cases run
  · intro _
    apply yields_bind
    intro here _
    apply yields_bind
    intro above _
    exact yields_some ⟨_, rfl⟩

def Rises (inner : Vertices → Search → Option Search) : Prop :=
  ∀ R m, Yields (inner R m) fun t => m.pk ≤ t.pk

theorem descend_dyn_rises (rises : Rises inner) : Rises (descend_dyn host conn n inner) := by
  intro R m
  unfold descend_dyn
  apply yields_ite
  · intro _
    apply yields_bind
    intro here _
    apply yields_bind
    intro T _
    apply yields_bind
    intro r run
    obtain ⟨C, colored⟩ := color_sort_yields r run
    apply yields_bind
    intro u counted
    obtain ⟨S, counted⟩ := inc_yields u counted
    apply yields_bind
    intro t searched
    have := rises _ _ t searched
    apply yields_some
    subst counted
    rw [colored] at this
    simp only at this ⊢
    omega
  · intro _ t run
    obtain ⟨QMAX, same⟩ := improve_yields t run
    rw [same]

theorem expandLoop_dyn_rises (host : Platform) (conn : Nat → Nat → Bool) (n : Nat) (maxStep : Int)
    (rises : Rises inner) (k : Nat) :
    Yields (expandLoop_dyn host conn n maxStep inner R k m) fun t => m.pk ≤ t.pk := by
  induction k generalizing m with
  | zero => exact yields_some (Nat.le_refl _)
  | succ k ih =>
    unfold expandLoop_dyn
    apply yields_ite
    · intro _
      exact yields_some (Nat.le_refl _)
    · intro _
      apply yields_bind
      intro d _
      apply yields_ite
      · intro _
        apply yields_bind
        intro v _
        apply yields_bind
        intro a pushed
        obtain ⟨Q, pushed⟩ := pushQ_yields a pushed
        subst pushed
        apply yields_bind
        intro T _
        apply yields_bind
        intro b descended
        have := descend_dyn_rises rises _ _ b descended
        intro t run
        have rest := ih t run
        simp only [Search.popQ] at this rest
        omega
      · intro _
        exact yields_some (Nat.le_refl _)

theorem expand_dyn_rises (depth : Nat) : Rises (expand_dyn host conn n maxStep depth) := by
  induction depth with
  | zero =>
    intro R m t run
    cases run
  | succ depth ih =>
    intro R m
    unfold expand_dyn
    apply yields_bind
    intro a entered
    obtain ⟨S, entered⟩ := enter_yields a entered
    subst entered
    exact expandLoop_dyn_rises _ _ _ _ (m := { m with S := S }) ih R.sz

end Steps

section Mirroring

/-- The states differ in the fields that only the dynamic search uses. -/
def Mirrored (m t : Search) : Prop := ∃ S level, t = { m with S := S, level := level }

/-- Where the dynamic search stays within its steps, the plain one ends in the same state. -/
def Mirrors (maxStep : Int) (x y : Option Search) : Prop :=
  ∀ t, y = some t → (t.pk : Int) ≤ maxStep → ∃ u, x = some u ∧ Mirrored u t

theorem improve_mirrors (same : Mirrored m t) : Mirrors maxStep m.improve t.improve := by
  obtain ⟨S, level, rfl⟩ := same
  intro u run _
  unfold Search.improve at run ⊢
  simp only at run
  split at run
  · rename_i better
    rw [if_pos better]
    obtain ⟨QMAX, assigned, run⟩ := Option.bind_eq_some_iff.mp run
    rw [assigned, ← Option.some.inj run]
    exact ⟨{ m with QMAX := QMAX }, rfl, S, level, rfl⟩
  · rename_i worse
    rw [if_neg worse, ← Option.some.inj run]
    exact ⟨m, rfl, S, level, rfl⟩

theorem color_sort_mirrors {S : List StepCount} {level pk : Nat} {r : Vertices × Search}
    (run : color_sort conn n { m with S := S, level := level, pk := pk } R = some r) :
    ∃ C, color_sort conn n m R = some (r.1, { m with C := C }) ∧
      r.2 = { m with C := C, S := S, level := level, pk := pk } := by
  unfold color_sort at run ⊢
  obtain ⟨q, classes, run⟩ := Option.bind_eq_some_iff.mp run
  simp only at classes
  rw [← Option.some.inj run, classes]
  exact ⟨q.2, rfl, rfl⟩

theorem descend_mirrors (never : ∀ i pk, host.belowTlimit i pk = false)
    (inside : ∀ R m t, Mirrored m t → Mirrors maxStep (inner R m) (inner' R t))
    (same : Mirrored m t) :
    Mirrors maxStep (descend conn n inner R m) (descend_dyn host conn n inner' R t) := by
  unfold descend descend_dyn
  split
  · obtain ⟨S, level, rfl⟩ := same
    intro u run within
    obtain ⟨here, _, run⟩ := Option.bind_eq_some_iff.mp run
    simp only [never, Bool.false_eq_true, if_false] at run
    obtain ⟨T, unsorted, run⟩ := Option.bind_eq_some_iff.mp run
    rw [← Option.some.inj unsorted] at run
    obtain ⟨r, colored, run⟩ := Option.bind_eq_some_iff.mp run
    obtain ⟨a, counted, run⟩ := Option.bind_eq_some_iff.mp run
    obtain ⟨b, searched, run⟩ := Option.bind_eq_some_iff.mp run
    obtain ⟨C, plain, result⟩ := color_sort_mirrors colored
    obtain ⟨S', counted⟩ := inc_yields a counted
    rw [counted, result] at searched
    rw [← Option.some.inj run] at within ⊢
    obtain ⟨c, found, S'', level', final⟩ := inside r.1 { m with C := C, pk := m.pk + 1 } _
      ⟨S', level + 1, rfl⟩ b searched within
    rw [plain]
    exact ⟨c, found, S'', level' - 1, by rw [final]⟩
  · exact improve_mirrors same

theorem expandLoop_mirrors (never : ∀ i pk, host.belowTlimit i pk = false) (rises : Rises inner')
    (inside : ∀ R m t, Mirrored m t → Mirrors maxStep (inner R m) (inner' R t))
    (k : Nat) (same : Mirrored m t) :
    Mirrors maxStep (expandLoop conn n inner R k m)
      (expandLoop_dyn host conn n maxStep inner' R k t) := by
  induction k generalizing m t with
  | zero =>
    intro u run _
    rw [← Option.some.inj run]
    exact ⟨m, rfl, same⟩
  | succ k ih =>
    intro u run within
    have rising := expandLoop_dyn_rises host conn n maxStep (R := R) (m := t) rises (k + 1) u run
    obtain ⟨S, level, rfl⟩ := same
    unfold expandLoop_dyn at run
    simp only at run rising
    rw [if_neg (by omega)] at run
    obtain ⟨d, number, run⟩ := Option.bind_eq_some_iff.mp run
    unfold expandLoop
    rw [number]
    split at run
    · rename_i promising
      obtain ⟨v, vertex, run⟩ := Option.bind_eq_some_iff.mp run
      obtain ⟨a, pushed, run⟩ := Option.bind_eq_some_iff.mp run
      obtain ⟨T, cut, run⟩ := Option.bind_eq_some_iff.mp run
      obtain ⟨b, descended, run⟩ := Option.bind_eq_some_iff.mp run
      unfold Search.pushQ at pushed
      obtain ⟨Q, pushed, result⟩ := Option.bind_eq_some_iff.mp pushed
      rw [← Option.some.inj result] at descended
      have risen := expandLoop_dyn_rises _ _ _ _ rises k u run
      simp only [Search.popQ] at risen
      obtain ⟨c, found, S', level', final⟩ := descend_mirrors never inside (m := { m with Q := Q })
        ⟨S, level, rfl⟩ b descended (by omega)
      have rest := ih (m := c.popQ) (t := b.popQ) ⟨S', level', by rw [final]; rfl⟩ u run within
      simp only [Option.bind_eq_bind, Option.bind_some]
      rw [if_pos promising, vertex]
      unfold Search.pushQ
      simp only [Option.bind_eq_bind, Option.bind_some] at pushed ⊢
      rw [pushed]
      simp only [Option.bind_some, Option.pure_def]
      rw [cut]
      simp only [Option.bind_some]
      rw [found]
      exact rest
    · rename_i hopeless
      simp only [Option.bind_eq_bind, Option.bind_some]
      rw [if_neg hopeless, ← Option.some.inj run]
      exact ⟨m, rfl, S, level, rfl⟩

theorem expand_mirrors (never : ∀ i pk, host.belowTlimit i pk = false) (depth : Nat) :
    ∀ R m t, Mirrored m t →
      Mirrors maxStep (expand conn n depth R m) (expand_dyn host conn n maxStep depth R t) := by
  induction depth with
  | zero =>
    intro R m t _ u run
    cases run
  | succ depth ih =>
    intro R m t same u run within
    obtain ⟨S', level, rfl⟩ := same
    unfold expand_dyn at run
    obtain ⟨a, entered, run⟩ := Option.bind_eq_some_iff.mp run
    obtain ⟨S, entered⟩ := enter_yields a entered
    exact expandLoop_mirrors (m := m) never (expand_dyn_rises depth) ih R.sz
      ⟨S, level, entered⟩ u run within

/-- The platform on which no ratio is below the limit. -/
def Platform.unsorted (host : Platform) : Platform :=
  { host with belowTlimit := fun _ _ => false }

theorem mcq_of_mcqdyn {steps : Int} {r : List Nat × Nat}
    (run : mcqdyn host.unsorted conn n maxStep = some r) (within : (r.2 : Int) ≤ maxStep) :
    mcq host conn n steps = some r := by
  unfold mcqdyn _mcq at run
  obtain ⟨made, constructed, run⟩ := Option.bind_eq_some_iff.mp run
  obtain ⟨V, m⟩ := made
  obtain ⟨W, prepared, run⟩ := Option.bind_eq_some_iff.mp run
  obtain ⟨u, searched, run⟩ := Option.bind_eq_some_iff.mp run
  rw [if_pos rfl] at searched
  obtain ⟨S, cleared, searched⟩ := Option.bind_eq_some_iff.mp searched
  rw [← Option.some.inj run] at within ⊢
  obtain ⟨t, plain, S', level, final⟩ := expand_mirrors (fun _ _ => rfl) n W m
    { m with S := S } ⟨S, m.level, rfl⟩ u searched within
  have same : prepare host conn n V = some W := prepared
  unfold mcq _mcq
  rw [constructed]
  simp only [Option.bind_eq_bind, Option.bind_some]
  rw [same]
  simp only [Option.bind_some, Bool.false_eq_true, if_false]
  rw [plain, final]
  rfl

/-- The plain search is the dynamic one on a platform that never sorts again, given steps
enough for every graph of that size. -/
theorem mcq_eq_mcqdyn {steps : Int} (some_vertex : 0 < n) :
    mcq host conn n steps = mcqdyn host.unsorted conn n (2 ^ n : Nat) := by
  obtain ⟨r, run, answered⟩ := mcqdyn_gives host.unsorted conn (2 ^ n : Nat) some_vertex
  have few := answered.few
  rw [run]
  exact mcq_of_mcqdyn run (by omega)

theorem mcq_gives (host : Platform) (conn : Nat → Nat → Bool) (steps : Int) (some_vertex : 0 < n) :
    Gives (mcq host conn n steps) (Answered conn n (2 ^ n : Nat)) := by
  rw [mcq_eq_mcqdyn some_vertex]
  exact mcqdyn_gives _ _ _ some_vertex

/-- Both searches return, never leave an array or the matrix and never read a degree that was
not written; the answer is a clique, and `mcqdyn` stops within `maxStep + 1` colourings. -/
theorem clique_search_safe (host : Platform) (conn : Nat → Nat → Bool) (n : Nat) (maxStep : Int)
    (some_vertex : 0 < n) :
    (∃ clique steps, mcqdyn host conn n maxStep = some (clique, steps) ∧ clique.Nodup ∧
      (∀ q ∈ clique, q < n) ∧ (clique.Pairwise fun a b => conn a b = true) ∧
      (steps : Int) ≤ max 0 (maxStep + 1)) ∧
    ∃ clique steps, mcq host conn n maxStep = some (clique, steps) ∧ clique.Nodup ∧
      (∀ q ∈ clique, q < n) ∧ (clique.Pairwise fun a b => conn a b = true) ∧ steps < 2 ^ n := by
  obtain ⟨r, run, answered⟩ := mcqdyn_gives host conn maxStep some_vertex
  obtain ⟨p, plain, answered'⟩ := mcq_gives host conn maxStep some_vertex
  exact ⟨⟨r.1, r.2, run, answered.nodup, answered.inside, answered.clique, answered.limit⟩,
    p.1, p.2, plain, answered'.nodup, answered'.inside, answered'.clique, answered'.few⟩

def cliqueSizes (conn : Nat → Nat → Bool) (n : Nat) : Set Nat :=
  {size | ∃ A, CliqueIn conn (List.range n) A ∧ A.length = size}

theorem answered_clique {r : List Nat × Nat} (symm : ∀ i j, conn i j = conn j i)
    (answered : Answered conn n maxStep r) : CliqueIn conn (List.range n) r.1 := by
  refine ⟨answered.nodup, fun q mem => List.mem_range.mpr (answered.inside q mem), ?_⟩
  intro a inA b inB ne
  have symmetric : Std.Symm fun a b : Nat => conn a b = true :=
    ⟨fun a b edge => (symm b a).trans edge⟩
  exact answered.clique.forall inA inB ne

/-- On a symmetric matrix the answer of `mcq`, and that of `mcqdyn` unless it ran out of
steps, is a largest clique. -/
theorem clique_search_maximum (host : Platform) (conn : Nat → Nat → Bool) (n : Nat)
    (maxStep : Int) (some_vertex : 0 < n) (symm : ∀ i j, conn i j = conn j i) :
    (∀ clique steps, mcqdyn host conn n maxStep = some (clique, steps) →
      (steps : Int) ≤ maxStep → IsGreatest (cliqueSizes conn n) clique.length) ∧
    ∀ clique steps, mcq host conn n maxStep = some (clique, steps) →
      IsGreatest (cliqueSizes conn n) clique.length := by
  have greatest : ∀ {limit : Int} {r : List Nat × Nat}, Answered conn n limit r →
      (r.2 : Int) ≤ limit → IsGreatest (cliqueSizes conn n) r.1.length := by
    intro limit r answered within
    refine ⟨⟨r.1, answered_clique symm answered, rfl⟩, ?_⟩
    rintro size ⟨A, clique, rfl⟩
    exact answered.largest within A clique
  constructor
  · intro clique steps run within
    obtain ⟨r, run', answered⟩ := mcqdyn_gives host conn maxStep some_vertex
    have same := Option.some.inj (run'.symm.trans run)
    subst same
    exact greatest answered within
  · intro clique steps run
    obtain ⟨r, run', answered⟩ := mcq_gives host conn maxStep some_vertex
    have same := Option.some.inj (run'.symm.trans run)
    subst same
    have few := answered.few
    exact greatest answered (by omega)

/-- Without sorting and within its steps `mcqdyn` answers exactly what `mcq` does; sorting
may change the clique but, on a symmetric matrix, not its size. -/
theorem searches_agree (host : Platform) (conn : Nat → Nat → Bool) (n : Nat)
    (maxStep steps : Int) (some_vertex : 0 < n) (r : List Nat × Nat)
    (run : mcqdyn host.unsorted conn n maxStep = some r) (within : (r.2 : Int) ≤ maxStep) :
    mcq host conn n steps = some r ∧ ((∀ i j, conn i j = conn j i) →
      ∀ (host' : Platform) (maxStep' : Int) (p : List Nat × Nat),
        mcqdyn host' conn n maxStep' = some p → (p.2 : Int) ≤ maxStep' →
          p.1.length = r.1.length) := by
  have plain : mcq host conn n steps = some r := mcq_of_mcqdyn run within
  refine ⟨plain, ?_⟩
  intro symm host' maxStep' p run' within'
  obtain ⟨r', again, answered⟩ := mcqdyn_gives host.unsorted conn maxStep some_vertex
  rw [run] at again
  have same := Option.some.inj again
  subst same
  obtain ⟨p', again', answered'⟩ := mcqdyn_gives host' conn maxStep' some_vertex
  rw [run'] at again'
  have same' := Option.some.inj again'
  subst same'
  exact Nat.le_antisymm (answered.largest within _ (answered_clique symm answered'))
    (answered'.largest within' _ (answered_clique symm answered))

def sampleMatrix (i j : Nat) : Bool := i ≠ j ∧ (i + j) % 3 ≠ 0

theorem sampleMatrix_symm (i j : Nat) : sampleMatrix i j = sampleMatrix j i := by
  unfold sampleMatrix
  rw [Nat.add_comm i j, Bool.eq_iff_iff]
  simp only [decide_eq_true_eq]
  omega

theorem clique_search_safe_small :
    (∃ clique steps, mcqdyn referencePlatform sampleMatrix 6 2 = some (clique, steps) ∧
      clique.Nodup ∧ (∀ q ∈ clique, q < 6) ∧
      (clique.Pairwise fun a b => sampleMatrix a b = true) ∧ (steps : Int) ≤ max 0 (2 + 1)) ∧
    ∃ clique steps, mcq referencePlatform sampleMatrix 6 2 = some (clique, steps) ∧
      clique.Nodup ∧ (∀ q ∈ clique, q < 6) ∧
      (clique.Pairwise fun a b => sampleMatrix a b = true) ∧ steps < 2 ^ 6 :=
  clique_search_safe referencePlatform sampleMatrix 6 2 (by decide)

theorem clique_search_maximum_small : IsGreatest (cliqueSizes sampleMatrix 6) 3 :=
  (clique_search_maximum referencePlatform sampleMatrix 6 100 (by decide) sampleMatrix_symm).1
    [5, 3, 2] 4 (by decide +kernel) (by decide)

theorem searches_agree_small : mcq referencePlatform sampleMatrix 6 0 = some ([5, 2, 3], 4) :=
  (searches_agree referencePlatform sampleMatrix 6 100 0 (by decide) ([5, 2, 3], 4)
    (by decide +kernel) (by decide)).1

end Mirroring

section BackEnd
open Literals OrderedContainers
variable {K : Type}

/-- The call in `adapt_am1_exact`, which asks for 100000 steps. -/
def mcqdynClique (host : Platform) (conn : Nat → Nat → Bool) (n : Nat) : List Nat :=
  ((mcqdyn host conn n 100000).map Prod.fst).getD []

def withCliqueSearch (env : Env K) (host : Platform) : Env K :=
  { env with maxclique := fun k conn n => (mcqdynClique host conn n, k) }

theorem mcqdynClique_joined (host : Platform) (symm : ∀ i j, conn i j = conn j i) :
    CliqueIn conn (List.range n) (mcqdynClique host conn n) := by
  unfold mcqdynClique
  by_cases some_vertex : 0 < n
  · obtain ⟨r, run, answered⟩ := mcqdyn_gives host conn 100000 some_vertex
    rw [run]
    exact answered_clique symm answered
  · have empty : n = 0 := by omega
    subst empty
    exact ⟨List.nodup_nil, List.nil_subset _, by simp [mcqdyn, _mcq, construct]⟩

theorem withCliqueSearch_clique (env : Env K) (host : Platform) (k : K) {conn : Nat → Nat → Bool}
    {n : Nat} (symm : ∀ i j, conn i j = conn j i) :
    ((withCliqueSearch env host).maxclique k conn n).1.Nodup ∧
      (∀ i ∈ ((withCliqueSearch env host).maxclique k conn n).1, i < n) ∧
      ∀ i ∈ ((withCliqueSearch env host).maxclique k conn n).1,
        ∀ j ∈ ((withCliqueSearch env host).maxclique k conn n).1, i ≠ j → conn i j = true := by
  have found := mcqdynClique_joined host (n := n) symm
  exact ⟨found.nodup, fun i mem => List.mem_range.mp (found.inside mem), found.joined⟩

/-- The clique search gives what every theorem about the solver asks of it. -/
theorem clique_search_sound (env : Env K) (host : Platform) (sound : env.Sound) :
    (withCliqueSearch env host).Sound where
  sat := sound.sat
  unsat := sound.unsat
  complete := sound.complete
  implied := sound.implied
  newly := sound.newly
  failing := sound.failing
  permutes := sound.permutes
  clique := fun k _ _ symm => withCliqueSearch_clique env host k symm

theorem clique_search_sound_small : (withCliqueSearch referenceBackEnd referencePlatform).Sound :=
  clique_search_sound referenceBackEnd referencePlatform reference_sound

end BackEnd
end Maxclique
end EvalMaxSat
