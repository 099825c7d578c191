import EvalMaxSat.CliqueSearch

/-!
What `mcq` and `mcqdyn` answer.
-/
namespace EvalMaxSat
namespace Maxclique
open CheckedRuns CliqueBounds

variable {host : Platform} {conn : Nat → Nat → Bool} {n : Nat} {maxStep : Int}

theorem counted_zero (size : Nat) : Counted (List.replicate (size + 1) ⟨0, 0⟩) 0 := by
  constructor
  · simp
  · simp
  · intro l a b at_l next
    have zero : ∀ s ∈ List.replicate (size + 1) (⟨0, 0⟩ : StepCount), s = ⟨0, 0⟩ :=
      fun s mem => List.eq_of_mem_replicate mem
    rw [zero a (List.mem_of_getElem? at_l), zero b (List.mem_of_getElem? next)]
    simp

theorem construct_gives (conn : Nat → Nat → Bool) (some_vertex : 0 < n) :
    Gives (construct n) fun r => Holds r.1 (List.range n) ∧ Sane conn n r.2 ∧ r.2.pk = 0 ∧
      r.2.level = 1 ∧ r.2.Q.i = [] ∧ r.2.QMAX.i = [] ∧
      r.2.S = List.replicate (n + 1) ⟨0, 0⟩ := by
  have filled := gives_range (n := n) (f := Vertices.push) (b := Vertices.alloc n)
    (fun i (V : Vertices) => Holds V (List.range i) ∧ V.v.length = n) ?_
    ⟨alloc_holds n, by simp [Vertices.alloc]⟩
  · unfold construct
    rw [if_neg (by omega)]
    apply gives_bind
    apply gives_mono filled
    intro V made
    apply gives_some
    refine ⟨made.1, ⟨⟨rfl, rfl⟩, ⟨by simp, ?_⟩, by simp, counted_zero n, List.nodup_nil,
      by simp [ColorClass.init], List.Pairwise.nil⟩, rfl, rfl, rfl, rfl, rfl⟩
    intro A mem
    rw [List.eq_of_mem_replicate mem]
    rfl
  · intro i V bound made
    rw [List.range_succ]
    apply gives_mono (push_gives made.1 (by rw [List.length_range, made.2]; exact bound))
    intro W pushed
    exact ⟨pushed.1, pushed.2.trans made.2⟩

theorem prepare_gives (host : Platform) {V : Vertices} (some_vertex : 0 < n) (holds : Holds V (List.range n)) :
    Gives (prepare host conn n V) fun W => ∃ ys, ys.Perm (List.range n) ∧
      Ranked conn W ys 1 0 := by
  unfold prepare
  apply gives_bind
  apply gives_mono (set_degrees_gives holds (fun x mem => List.mem_range.mp mem))
  intro T degrees
  apply gives_bind
  apply gives_mono (sort_gives degrees.1)
  intro U ordered
  obtain ⟨_, ys, perm, weighed, sorted⟩ := ordered
  have length := perm.length_eq
  rw [List.length_range] at length
  have same_degree : ∀ x, ((List.range n).filter (conn x)).length = (ys.filter (conn x)).length :=
    fun x => (perm.filter (conn x)).length_eq.symm
  simp only [same_degree] at weighed sorted
  cases ys with
  | nil =>
    rw [List.length_nil] at length
    omega
  | cons v ys =>
    rw [List.pairwise_cons] at sorted
    apply gives_mono (init_colors_gives weighed sorted.1 1)
    intro W ranked
    exact ⟨v :: ys, perm, ranked⟩

theorem clearCounts_eq {V : Vertices} (size : V.sz = n) :
    clearCounts V (List.replicate (n + 1) ⟨0, 0⟩) = some (List.replicate (n + 1) ⟨0, 0⟩) := by
  have cleared := gives_range (n := V.sz + 1)
    (f := fun (S : List StepCount) i => if i < S.length then some (S.set i ⟨0, 0⟩) else none)
    (b := List.replicate (n + 1) ⟨0, 0⟩)
    (fun _ S => S = List.replicate (n + 1) (⟨0, 0⟩ : StepCount)) ?_ rfl
  · obtain ⟨S, run, same⟩ := cleared
    rw [same] at run
    exact run
  · intro i S bound same
    subst same
    rw [if_pos (by rw [List.length_replicate]; omega)]
    apply gives_some
    apply List.ext_getElem?
    intro l
    by_cases here : i = l
    · subst here
      rw [List.getElem?_set_self (by rw [List.length_replicate]; omega),
        List.getElem?_replicate_of_lt (by omega)]
    · rw [List.getElem?_set_ne here]

theorem ready_of_start {V : Vertices} {ys : List Nat} {m : Search} (perm : ys.Perm (List.range n))
    (ranked : Ranked conn V ys 1 0) (sane : Sane conn n m) (level : m.level = 1)
    (chosen : m.Q.i = []) (best : m.QMAX.i = []) : Ready conn n V ys m := by
  have length := perm.length_eq
  rw [List.length_range] at length
  refine ⟨sane, ?_, by omega, 0, 1, ranked, ?_⟩
  · rw [chosen]
    refine ⟨perm.nodup_iff.mpr List.nodup_range, ?_, List.Pairwise.nil, by simp⟩
    intro x mem
    exact List.mem_range.mp (perm.subset mem)
  · rw [chosen, best]
    simp

/-- What a search on `n` vertices answers: a clique, the colourings it took, and a largest
clique if these are no more than `maxStep`. -/
structure Answered (conn : Nat → Nat → Bool) (n : Nat) (maxStep : Int) (r : List Nat × Nat) :
    Prop where
  nodup : r.1.Nodup
  inside : ∀ q ∈ r.1, q < n
  clique : r.1.Pairwise fun a b => conn a b = true
  limit : (r.2 : Int) ≤ max 0 (maxStep + 1)
  few : r.2 < 2 ^ n
  largest : (r.2 : Int) ≤ maxStep → ∀ A, CliqueIn conn (List.range n) A → A.length ≤ r.1.length

theorem mcqdyn_alike {host' : Platform} (hosts : Interchangeable maxStep host host')
    (some_vertex : 0 < n) : Alike (mcqdyn host conn n maxStep) (mcqdyn host' conn n maxStep)
      (Answered conn n maxStep) := by
  unfold mcqdyn _mcq
  apply alike_bind_same (construct_gives conn some_vertex)
  intro r made
  obtain ⟨V, m⟩ := r
  obtain ⟨holds, sane, pk, level, chosen, best, counters⟩ := made
  simp only at holds sane pk level chosen best counters ⊢
  have same : prepare host' conn n V = prepare host conn n V := by
    unfold prepare Vertices.sort
    rw [hosts.sort]
  rw [same]
  apply alike_bind_same (prepare_gives host some_vertex holds)
  intro W prepared
  obtain ⟨ys, perm, ranked⟩ := prepared
  have length := perm.length_eq
  rw [List.length_range] at length
  have size := ranked.holds.size
  have ready := ready_of_start perm ranked sane level chosen best
  rw [if_pos trivial, if_pos trivial, counters]
  apply alike_bind
  apply alike_bind_of_eq (clearCounts_eq (size.trans length))
  rw [← counters]
  apply alike_mono (expand_dyn_explores hosts n W ys m (by omega) (by omega) ready)
  intro t searched
  apply alike_some
  have limit := searched.limit
  have few := searched.few
  rw [pk] at limit few
  rw [length] at few
  refine ⟨searched.sane.distinct, searched.sane.inside, searched.sane.clique, limit,
    by simp only; omega, ?_⟩
  intro within A clique
  by_cases some_member : 0 < A.length
  · have covered := searched.covers within A (clique_mono (fun x mem => perm.symm.subset mem) clique)
      some_member
    rw [chosen] at covered
    simpa using covered
  · simp only
    omega

theorem mcqdyn_gives (host : Platform) (conn : Nat → Nat → Bool) (maxStep : Int)
    (some_vertex : 0 < n) :
    Gives (mcqdyn host conn n maxStep) (Answered conn n maxStep) :=
  gives_of_alike (mcqdyn_alike (interchangeable_self maxStep host) some_vertex)

/-- The comparison with `Tlimit` only ever sees fractions below one, with a denominator of at
most `maxStep + 1`: on no other numbers does its outcome matter. -/
theorem only_fractions_matter (host host' : Platform) (conn : Nat → Nat → Bool) (n : Nat)
    (maxStep : Int) (some_vertex : 0 < n) (sort : host.sort = host'.sort)
    (test : ∀ (i1 : Int) (pk : Nat), 0 ≤ i1 → i1 < pk → (pk : Int) ≤ maxStep + 1 →
      host.belowTlimit i1 pk = host'.belowTlimit i1 pk) :
    mcqdyn host conn n maxStep = mcqdyn host' conn n maxStep :=
  alike_eq (mcqdyn_alike ⟨sort, test⟩ some_vertex)

theorem only_fractions_matter_small :
    mcqdyn referencePlatform (fun i j => i ≠ j) 3 100 =
      mcqdyn { referencePlatform with
        belowTlimit := fun i1 pk => decide (0 ≤ i1 ∧ i1 < pk) && decide (40 * i1 < pk) }
        (fun i j => i ≠ j) 3 100 := by
  apply only_fractions_matter
  · decide
  · rfl
  · intro i1 pk low high _
    simp [referencePlatform, low, high]

end Maxclique
end EvalMaxSat
