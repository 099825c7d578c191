import EvalMaxSat.CliqueColoring
import Mathlib.Algebra.BigOperators.Group.List.Basic
import Mathlib.Algebra.Order.BigOperators.Group.List
import Mathlib.Algebra.Order.Group.Int
import Mathlib.Algebra.Ring.Int.Defs

/-!
The two recursive searches: what one branch does, and from it by induction what the whole
search below a vertex does.
-/
namespace EvalMaxSat
namespace Maxclique
open CheckedRuns CliqueBounds

variable {host : Platform} {conn : Nat → Nat → Bool} {n : Nat} {R T : Vertices}
  {xs ys : List Nat} {m t u : Search}

section Candidates

theorem connection_eq {i j : Nat} (inI : i < n) (inJ : j < n) :
    connection conn n i j = some (conn i j) := if_pos ⟨inI, inJ⟩

theorem push_gives {x : Nat} (holds : Holds R xs) (room : xs.length < R.v.length) :
    Gives (R.push x) fun T => Holds T (xs ++ [x]) ∧ T.v.length = R.v.length := by
  unfold Vertices.push
  rw [holds.size]
  apply gives_bind
  apply gives_mono (set_i_gives room)
  intro T h
  obtain ⟨sz, length, value, others, _⟩ := h
  apply gives_some
  refine ⟨⟨?_, ?_, ?_⟩, length⟩
  · rw [List.length_append, List.length_singleton, sz, holds.size]
  · rw [List.length_append, List.length_singleton, length]
    omega
  · intro l y found
    by_cases last : l = xs.length
    · rw [last, List.getElem?_concat_length] at found
      rw [last, ← Option.some.inj found]
      exact value
    · have bound := (List.getElem?_eq_some_iff.mp found).1
      rw [List.length_append, List.length_singleton] at bound
      rw [List.getElem?_append_left (by omega)] at found
      exact (others l last).trans (holds.each l y found)

theorem alloc_holds (size : Nat) : Holds (Vertices.alloc size) [] :=
  ⟨rfl, Nat.zero_le _, by simp⟩

theorem cut2_gives (conn : Nat → Nat → Bool) {v : Nat} (holds : Holds R (xs ++ [v]))
    (inside : ∀ x ∈ xs ++ [v], x < n) :
    Gives (cut2 conn n R (Vertices.alloc (xs.length + 1))) fun T =>
      Holds T (xs.filter (conn v)) := by
  have last : R.get_i (R.sz - 1) = some v := by
    apply holds.each
    rw [holds.size, List.length_append, List.length_singleton]
    simp
  unfold cut2
  have all := gives_range (n := R.sz - 1) (fun i (B : Vertices) =>
      Holds B ((xs.take i).filter (conn v)) ∧ B.v.length = xs.length + 1)
    (f := fun (B : Vertices) i => do
      let edge ← connection conn n (← R.get_i (R.sz - 1)) (← R.get_i i)
      if edge then B.push (← R.get_i i) else some B)
    (b := Vertices.alloc (xs.length + 1)) ?_ ?_
  · apply gives_mono all
    intro T h
    obtain ⟨here, _⟩ := h
    rwa [holds.size, List.length_append, List.length_singleton, Nat.add_sub_cancel,
      List.take_length] at here
  · intro i B bound h
    obtain ⟨here, length⟩ := h
    rw [holds.size, List.length_append, List.length_singleton, Nat.add_sub_cancel] at bound
    have at_i : R.get_i i = some xs[i] := by
      apply holds.each
      rw [List.getElem?_append_left bound, List.getElem?_eq_getElem bound]
    apply gives_bind_of_eq last
    apply gives_bind_of_eq at_i
    apply gives_bind_of_eq (connection_eq (inside v (by simp)) (inside _ (by simp)))
    rw [List.take_add_one, List.getElem?_eq_getElem bound, Option.toList_some, List.filter_append]
    apply gives_ite
    · intro edge
      apply gives_bind_of_eq at_i
      have few : ((xs.take i).filter (conn v)).length < B.v.length := by
        have := List.length_filter_le (conn v) (xs.take i)
        rw [List.length_take] at this
        omega
      apply gives_mono (push_gives here few)
      intro C h
      obtain ⟨pushed, same⟩ := h
      rw [List.filter_cons_of_pos edge, List.filter_nil]
      exact ⟨pushed, same.trans length⟩
    · intro apart
      apply gives_some
      rw [List.filter_cons_of_neg apart, List.filter_nil, List.append_nil]
      exact ⟨here, length⟩
  · exact ⟨alloc_holds _, by simp [Vertices.alloc]⟩

theorem degree_gives {x : Nat} (holds : Holds R xs) (inX : x < n) (inside : ∀ y ∈ xs, y < n)
    {i : Nat} (found : R.get_i i = some x) :
    Gives ((List.range R.sz).foldlM (fun d j => do
      let edge ← connection conn n (← R.get_i i) (← R.get_i j)
      return if edge then d + 1 else d) 0) fun d => d = (xs.filter (conn x)).length := by
  have all := gives_range (n := R.sz) (b := 0)
    (fun j d => d = ((xs.take j).filter (conn x)).length)
    (f := fun d j => do
      let edge ← connection conn n (← R.get_i i) (← R.get_i j)
      return if edge then d + 1 else d) ?_ rfl
  · apply gives_mono all
    intro d value
    rwa [holds.size, List.take_length] at value
  · intro j d bound value
    rw [holds.size] at bound
    apply gives_bind_of_eq found
    apply gives_bind_of_eq (holds.each j _ (List.getElem?_eq_getElem bound))
    apply gives_bind_of_eq (connection_eq inX (inside _ (List.getElem_mem bound)))
    apply gives_some
    rw [List.take_add_one, List.getElem?_eq_getElem bound, Option.toList_some, List.filter_append,
      List.length_append, ← value]
    cases edge : conn x xs[j] <;> simp [edge]

/-- The vertices of `R` carry the degrees `deg`. -/
structure Weighed (R : Vertices) (xs : List Nat) (deg : Nat → Nat) : Prop where
  holds : Holds R xs
  degree : ∀ l x, xs[l]? = some x → R.get_degree l = some (deg x)

theorem set_degrees_gives (holds : Holds R xs) (inside : ∀ x ∈ xs, x < n) :
    Gives (R.set_degrees conn n) fun T =>
      Weighed T xs (fun x => (xs.filter (conn x)).length) ∧ T.v.length = R.v.length := by
  unfold Vertices.set_degrees
  have all := gives_range (n := R.sz) (b := R)
    (fun i (B : Vertices) => Holds B xs ∧ B.v.length = R.v.length ∧
      ∀ l x, l < i → xs[l]? = some x → B.get_degree l = some (xs.filter (conn x)).length)
    (f := fun (R : Vertices) i => do
      let d ← (List.range R.sz).foldlM (fun d j => do
        let edge ← connection conn n (← R.get_i i) (← R.get_i j)
        return if edge then d + 1 else d) 0
      R.set_degree i d) ?_ ⟨holds, rfl, by omega⟩
  · apply gives_mono all
    intro T h
    obtain ⟨here, length, done⟩ := h
    refine ⟨⟨here, ?_⟩, length⟩
    intro l x found
    have bound := (List.getElem?_eq_some_iff.mp found).1
    exact done l x (by rw [holds.size]; exact bound) found
  · intro i B bound h
    obtain ⟨here, length, done⟩ := h
    rw [holds.size] at bound
    have at_i := here.each i _ (List.getElem?_eq_getElem bound)
    apply gives_bind
    apply gives_mono (degree_gives here (inside _ (List.getElem_mem bound)) inside at_i)
    intro d value
    have room := here.room
    apply gives_mono (set_degree_gives (by omega))
    intro C h
    obtain ⟨sz, length', new, others, same⟩ := h
    refine ⟨⟨sz.trans here.size, by omega, ?_⟩, length'.trans length, ?_⟩
    · intro l x found
      exact (same l).trans (here.each l x found)
    · intro l x low found
      by_cases last : l = i
      · subst last
        rw [List.getElem?_eq_getElem bound] at found
        rw [new, value, Option.some.inj found]
      · rw [others l last]
        exact done l x (by omega) found

theorem weighed_take {deg : Nat → Nat} (weighed : Weighed R xs deg) :
    R.v.take R.sz = xs.map fun x => ⟨some x, some (deg x)⟩ := by
  apply List.ext_getElem?
  intro l
  have room := weighed.holds.room
  rw [weighed.holds.size, List.getElem?_map]
  by_cases bound : l < xs.length
  · have vertex := List.getElem?_eq_getElem bound
    have here := weighed.holds.each l _ vertex
    have degree := weighed.degree l _ vertex
    have inside : l < R.v.length := by omega
    unfold Vertices.get_i at here
    unfold Vertices.get_degree at degree
    rw [List.getElem?_take_of_lt bound]
    rw [List.getElem?_eq_getElem inside] at here degree ⊢
    rw [vertex]
    simp only [Option.bind_eq_bind, Option.bind_some] at here degree
    rw [Option.map_some, ← here, ← degree]
  · rw [List.getElem?_eq_none (by rw [List.length_take]; omega), List.getElem?_eq_none (by omega)]
    rfl

theorem sort_gives {deg : Nat → Nat} (weighed : Weighed R xs deg) :
    Gives (R.sort host) fun T => T.v.length = R.v.length ∧
      ∃ ys, ys.Perm xs ∧ Weighed T ys deg ∧ ys.Pairwise fun x y => deg y ≤ deg x := by
  have room := weighed.holds.room
  have size := weighed.holds.size
  have before := weighed_take weighed
  have perm := host.perm (R.v.take R.sz)
  obtain ⟨ys, mapped, vertices⟩ : ∃ ys : List Nat, ys.Perm xs ∧
      host.sort (R.v.take R.sz) = ys.map fun x => ⟨some x, some (deg x)⟩ := by
    refine ⟨(host.sort (R.v.take R.sz)).map fun vertex => vertex.i.getD 0, ?_, ?_⟩
    · have named := perm.map fun vertex => vertex.i.getD 0
      rw [before, List.map_map] at named
      rw [before]
      simpa [Function.comp_def] using named
    · rw [List.map_map]
      have fixed : ∀ vertex ∈ host.sort (R.v.take R.sz),
          (⟨some (vertex.i.getD 0), some (deg (vertex.i.getD 0))⟩ : Vertex) = vertex := by
        intro vertex mem
        have old := perm.subset mem
        rw [before] at old
        obtain ⟨x, _, rfl⟩ := List.mem_map.mp old
        rfl
      exact (List.map_id _).symm.trans (List.map_congr_left fun v mem => (fixed v mem).symm)
  have sorted := host.sorted (R.v.take R.sz)
  rw [vertices, List.pairwise_map] at sorted
  have lengths : (host.sort (R.v.take R.sz)).length = ys.length := by
    rw [vertices, List.length_map]
  have place : ∀ (l x : Nat), ys[l]? = some x →
      (host.sort (R.v.take R.sz) ++ R.v.drop R.sz)[l]? =
        some (⟨some x, some (deg x)⟩ : Vertex) := by
    intro l x found
    have bound := (List.getElem?_eq_some_iff.mp found).1
    rw [List.getElem?_append_left (by omega), vertices, List.getElem?_map, found]
    rfl
  unfold Vertices.sort
  rw [if_pos]
  · apply gives_some
    refine ⟨?_, ys, mapped, ⟨⟨?_, ?_, ?_⟩, ?_⟩, sorted⟩
    · rw [List.length_append, List.length_drop, perm.length_eq, List.length_take]
      omega
    · exact size.trans mapped.length_eq.symm
    · rw [List.length_append, lengths]
      omega
    · intro l x found
      unfold Vertices.get_i
      rw [place l x found]
      rfl
    · intro l x found
      unfold Vertices.get_degree
      rw [place l x found]
      rfl
  · refine ⟨by omega, ?_⟩
    intro vertex mem
    rw [before] at mem
    obtain ⟨x, _, rfl⟩ := List.mem_map.mp mem
    rfl

theorem degree_sort_gives (holds : Holds R xs) (inside : ∀ x ∈ xs, x < n) :
    Gives (degree_sort host conn n R) fun T => ∃ ys, ys.Perm xs ∧ Holds T ys := by
  unfold degree_sort
  apply gives_bind
  apply gives_mono (set_degrees_gives holds inside)
  intro T h
  obtain ⟨weighed, _⟩ := h
  apply gives_mono (sort_gives weighed)
  intro U h
  obtain ⟨_, ys, perm, weighed', _⟩ := h
  exact ⟨ys, perm, weighed'.holds⟩

theorem renumber_gives {i d : Nat} (holds : Holds R xs) (bound : i < xs.length) :
    Gives (R.set_degree i d) fun T => Holds T xs ∧ T.get_degree i = some d ∧
      ∀ l, l ≠ i → T.get_degree l = R.get_degree l := by
  have room := holds.room
  apply gives_mono (set_degree_gives (by omega))
  intro T h
  obtain ⟨sz, length, new, others, same⟩ := h
  refine ⟨⟨sz.trans holds.size, by omega, ?_⟩, new, others⟩
  intro l x found
  exact (same l).trans (holds.each l x found)

theorem init_colors_gives {v : Nat}
    (weighed : Weighed R (v :: xs) fun x => ((v :: xs).filter (conn x)).length)
    (sorted : ∀ x ∈ xs, ((v :: xs).filter (conn x)).length ≤ ((v :: xs).filter (conn v)).length)
    (min_k : Int) :
    Gives R.init_colors fun T => Ranked conn T (v :: xs) min_k 0 := by
  have most := List.length_filter_le (conn v) (v :: xs)
  have size := weighed.holds.size
  unfold Vertices.init_colors
  apply gives_bind_of_eq (weighed.degree 0 v rfl)
  generalize value : ((v :: xs).filter (conn v)).length = d at *
  have first := gives_range (n := d) (b := R) (f := fun R i => R.set_degree i (i + 1))
    (fun i (B : Vertices) => Holds B (v :: xs) ∧ ∀ l, l < i → B.get_degree l = some (l + 1))
    ?_ ⟨weighed.holds, by omega⟩
  · apply gives_bind
    apply gives_mono first
    intro B h
    obtain ⟨here, low⟩ := h
    have second := gives_range_from (k := d) (n := B.sz - d) (b := B)
      (f := fun R i => R.set_degree i (d + 1))
      (fun i (B : Vertices) => Holds B (v :: xs) ∧
        (∀ l, l < d → B.get_degree l = some (l + 1)) ∧
        ∀ l, d ≤ l → l < i → B.get_degree l = some (d + 1)) ?_ ⟨here, low, by omega⟩
    · apply gives_mono second
      intro C h
      obtain ⟨final, small, large⟩ := h
      refine ⟨final, Nat.zero_le _, ?_, by omega, by omega⟩
      intro i _ bound
      rw [here.size] at large
      by_cases side : i < d
      · refine ⟨i + 1, small i side, ?_⟩
        intro A clique
        have := at_most_length conn _ A clique
        rw [List.length_take] at this
        omega
      · refine ⟨d + 1, large i (by omega) (by omega), ?_⟩
        apply at_most_degrees
        intro x mem
        have sub := (List.take_sublist (i + 1) (v :: xs)).filter (conn x)
        have few := sub.length_le
        rcases List.mem_cons.mp (List.mem_of_mem_take mem) with same | other
        · rw [same, value] at few
          rw [same]
          exact few
        · have := sorted x other
          omega
    · intro i C low' high h
      obtain ⟨final, small, large⟩ := h
      rw [here.size] at high
      apply gives_mono (renumber_gives final (by omega))
      intro D h
      obtain ⟨holds, new, others⟩ := h
      refine ⟨holds, ?_, ?_⟩
      · intro l bound
        rw [others l (by omega)]
        exact small l bound
      · intro l bound high'
        by_cases last : l = i
        · rw [last]
          exact new
        · rw [others l last]
          exact large l bound (by omega)
  · intro i B bound h
    obtain ⟨here, low⟩ := h
    apply gives_mono (renumber_gives here (by omega))
    intro C h
    obtain ⟨holds, new, others⟩ := h
    refine ⟨holds, ?_⟩
    intro l high
    by_cases last : l = i
    · rw [last]
      exact new
    · rw [others l last]
      exact low l (by omega)

end Candidates

section Counters

/-- The differences of the counters add up to the steps, and each level has seen no more
than the level above it has counted. -/
structure Counted (S : List StepCount) (pk : Nat) : Prop where
  total : (S.map fun s => s.i1 - s.i2).sum = pk
  top : S[0]? = some ⟨0, 0⟩
  seen : ∀ l a b, S[l]? = some a → S[l + 1]? = some b →
    0 ≤ b.i2 ∧ b.i2 ≤ a.i1 ∧ b.i2 ≤ b.i1

variable {S : List StepCount} {pk l : Nat} {here : StepCount}

theorem counted_level (counted : Counted S pk) (found : S[l]? = some here) :
    0 ≤ here.i2 ∧ here.i2 ≤ here.i1 := by
  cases l with
  | zero =>
    rw [counted.top] at found
    rw [← Option.some.inj found]
    simp
  | succ l =>
    have bound := (List.getElem?_eq_some_iff.mp found).1
    have above := List.getElem?_eq_getElem (show l < S.length by omega)
    have := counted.seen l _ here above found
    exact ⟨this.1, this.2.2⟩

theorem counted_bound (counted : Counted S pk) (found : S[l]? = some here) :
    0 ≤ here.i1 ∧ here.i1 ≤ pk := by
  have partial_sum : ∀ l here, S[l]? = some here →
      here.i1 ≤ ((S.take (l + 1)).map fun s => s.i1 - s.i2).sum := by
    intro l
    induction l with
    | zero =>
      intro here found
      rw [counted.top] at found
      rw [← Option.some.inj found, List.take_add_one, counted.top]
      simp
    | succ l ih =>
      intro here found
      have bound := (List.getElem?_eq_some_iff.mp found).1
      have above := List.getElem?_eq_getElem (show l < S.length by omega)
      have less := ih _ above
      have seen := counted.seen l _ here above found
      rw [List.take_add_one, found, Option.toList_some, List.map_append, List.sum_append,
        List.map_singleton, List.sum_singleton]
      omega
  have level := counted_level counted found
  have rest : 0 ≤ ((S.drop (l + 1)).map fun s => s.i1 - s.i2).sum := by
    apply List.sum_nonneg
    intro d mem
    obtain ⟨s, inS, rfl⟩ := List.mem_map.mp mem
    obtain ⟨k, at_k⟩ := List.mem_iff_getElem?.mp (List.mem_of_mem_drop inS)
    have := counted_level counted at_k
    omega
  have whole := counted.total
  rw [← List.take_append_drop (l + 1) S, List.map_append, List.sum_append] at whole
  have := partial_sum l here found
  omega

theorem counted_set (new : StepCount) {d : Nat} (counted : Counted S pk) (positive : 1 ≤ l)
    (found : S[l]? = some here) (low : 0 ≤ new.i2) (more : here.i1 ≤ new.i1)
    (seen : ∀ a, S[l - 1]? = some a → new.i2 ≤ a.i1)
    (difference : new.i1 - new.i2 = here.i1 - here.i2 + d) :
    Counted (S.set l new) (pk + d) := by
  have bound := (List.getElem?_eq_some_iff.mp found).1
  have value : S[l] = here := (List.getElem?_eq_some_iff.mp found).2
  have level := counted_level counted found
  constructor
  · have total := counted.total
    rw [List.map_set, List.sum_set', total]
    rw [dif_pos (by rwa [List.length_map]), List.getElem_map, value]
    push_cast
    omega
  · rw [List.getElem?_set_ne (by omega)]
    exact counted.top
  · intro k a b at_k next
    by_cases this : k + 1 = l
    · subst this
      rw [List.getElem?_set_self bound] at next
      rw [List.getElem?_set_ne (by omega)] at at_k
      rw [← Option.some.inj next]
      have := seen a at_k
      exact ⟨low, this, by omega⟩
    · rw [List.getElem?_set_ne (Ne.symm this)] at next
      by_cases above : k = l
      · subst above
        rw [List.getElem?_set_self bound] at at_k
        have := counted.seen k _ b found next
        rw [← Option.some.inj at_k]
        omega
      · rw [List.getElem?_set_ne (Ne.symm above)] at at_k
        exact counted.seen k a b at_k next

end Counters

section Branches

/-- The state between two branches: arrays of the sizes they were made with, the counters,
and a best clique. -/
structure Sane (conn : Nat → Nat → Bool) (n : Nat) (m : Search) : Prop where
  caps : m.Q.cap = n ∧ m.QMAX.cap = n
  classes : Classes n m.C
  length : m.S.length = n + 1
  counted : Counted m.S m.pk
  distinct : m.QMAX.i.Nodup
  inside : ∀ q ∈ m.QMAX.i, q < n
  clique : m.QMAX.i.Pairwise fun a b => conn a b = true

/-- The chosen vertices `Q` form a clique, and the candidates `xs` are joined to all of it. -/
structure Joined (conn : Nat → Nat → Bool) (n : Nat) (Q xs : List Nat) : Prop where
  nodup : (Q ++ xs).Nodup
  inside : ∀ x ∈ Q ++ xs, x < n
  clique : Q.Pairwise fun a b => conn a b = true
  edges : ∀ q ∈ Q, ∀ x ∈ xs, conn q x = true

theorem joined_length {Q : List Nat} (joined : Joined conn n Q xs) : Q.length + xs.length ≤ n := by
  have sub : Q ++ xs ⊆ List.range n := fun x mem => List.mem_range.mpr (joined.inside x mem)
  have short := (joined.nodup.subperm sub).length_le
  rwa [List.length_append, List.length_range] at short

theorem joined_sublist {Q : List Nat} (joined : Joined conn n Q xs) (sub : ys.Sublist xs) :
    Joined conn n Q ys := by
  refine ⟨(List.Sublist.append_left sub Q).nodup joined.nodup, ?_, joined.clique, ?_⟩
  · intro x mem
    exact joined.inside x ((List.Sublist.append_left sub Q).subset mem)
  · intro q inQ x mem
    exact joined.edges q inQ x (sub.subset mem)

theorem joined_perm {Q : List Nat} (joined : Joined conn n Q xs) (perm : ys.Perm xs) :
    Joined conn n Q ys := by
  refine ⟨((perm.append_left Q).nodup_iff).mpr joined.nodup, ?_, joined.clique, ?_⟩
  · intro x mem
    exact joined.inside x ((perm.append_left Q).subset mem)
  · intro q inQ x mem
    exact joined.edges q inQ x (perm.subset mem)

theorem joined_take {Q : List Nat} {v : Nat} (joined : Joined conn n Q (xs ++ [v])) :
    Joined conn n (Q ++ [v]) (xs.filter (conn v)) := by
  have sub : (xs.filter (conn v)).Sublist xs := List.filter_sublist
  have rotated : (Q ++ [v] ++ xs).Perm (Q ++ (xs ++ [v])) := by
    rw [List.append_assoc]
    exact List.perm_append_comm.append_left Q
  constructor
  · exact (List.Sublist.append_left sub _).nodup (rotated.nodup_iff.mpr joined.nodup)
  · intro x mem
    exact joined.inside x (rotated.subset ((List.Sublist.append_left sub _).subset mem))
  · rw [List.pairwise_append]
    refine ⟨joined.clique, List.pairwise_singleton _ _, ?_⟩
    intro q inQ x mem
    rw [List.mem_singleton.mp mem]
    exact joined.edges q inQ v (by simp)
  · intro q mem x inX
    obtain ⟨old, edge⟩ := List.mem_filter.mp inX
    rcases List.mem_append.mp mem with inQ | last
    · exact joined.edges q inQ x (by simp [old])
    · rw [List.mem_singleton.mp last]
      exact edge

/-- What a search among the candidates `xs` with `maxStep` colourings allowed has done. -/
structure Searched (conn : Nat → Nat → Bool) (n : Nat) (maxStep : Int) (xs : List Nat)
    (m t : Search) : Prop where
  sane : Sane conn n t
  q : t.Q = m.Q
  level : t.level = m.level
  grows : m.QMAX.i.length ≤ t.QMAX.i.length
  steps : m.pk ≤ t.pk
  limit : (t.pk : Int) ≤ max (m.pk : Int) (maxStep + 1)
  few : t.pk + 1 ≤ m.pk + 2 ^ xs.length
  covers : (t.pk : Int) ≤ maxStep → ∀ A, CliqueIn conn xs A → 0 < A.length →
    m.Q.i.length + A.length ≤ t.QMAX.i.length

variable {maxStep : Int}

theorem searched_stop (sane : Sane conn n m)
    (covers : (m.pk : Int) ≤ maxStep → ∀ A, CliqueIn conn xs A → 0 < A.length →
      m.Q.i.length + A.length ≤ m.QMAX.i.length) : Searched conn n maxStep xs m m := by
  have positive := Nat.two_pow_pos xs.length
  exact ⟨sane, rfl, rfl, Nat.le_refl _, Nat.le_refl _, by omega, by omega, covers⟩

theorem improve_gives (sane : Sane conn n m) (joined : Joined conn n m.Q.i []) :
    Gives m.improve fun t => Sane conn n t ∧ t.Q = m.Q ∧ t.level = m.level ∧ t.pk = m.pk ∧
      m.QMAX.i.length ≤ t.QMAX.i.length ∧ m.Q.i.length ≤ t.QMAX.i.length := by
  unfold Search.improve
  have room := joined_length joined
  rw [List.length_nil, Nat.add_zero] at room
  apply gives_ite
  · intro better
    unfold ColorClass.assign
    rw [if_pos (by rw [sane.caps.2]; exact room)]
    apply gives_bind_of_eq rfl
    apply gives_some
    have nodup := joined.nodup
    have inside := joined.inside
    rw [List.append_nil] at nodup inside
    exact ⟨⟨sane.caps, sane.classes, sane.length, sane.counted, nodup, inside, joined.clique⟩,
      rfl, rfl, rfl, Nat.le_of_lt better, Nat.le_refl _⟩
  · intro worse
    apply gives_some
    exact ⟨sane, rfl, rfl, rfl, Nat.le_refl _, by omega⟩

theorem enter_gives (sane : Sane conn n m) (level : 1 ≤ m.level) (bound : m.level ≤ n) :
    Gives m.enter fun t => ∃ S, t = { m with S := S } ∧ S.length = n + 1 ∧ Counted S m.pk := by
  have length := sane.length
  have found := List.getElem?_eq_getElem (show m.level < m.S.length by omega)
  have above := List.getElem?_eq_getElem (show m.level - 1 < m.S.length by omega)
  unfold Search.enter
  rw [if_neg (by omega)]
  apply gives_bind_of_eq found
  apply gives_bind_of_eq above
  apply gives_some
  refine ⟨_, rfl, by rw [List.length_set]; exact length, ?_⟩
  have old := counted_level sane.counted above
  have seen := sane.counted.seen (m.level - 1) _ m.S[m.level] above
    (by rw [Nat.sub_add_cancel level]; exact found)
  have next := counted_set ⟨m.S[m.level].i1 + m.S[m.level - 1].i1 - m.S[m.level].i2,
    m.S[m.level - 1].i1⟩ (d := 0) sane.counted level found (by simp only; omega)
    (by simp only; omega) ?_ (by simp only; omega)
  · exact next
  · intro a at_a
    rw [above] at at_a
    rw [← Option.some.inj at_a]

theorem inc_gives {pk : Nat} (length : m.S.length = n + 1) (counted : Counted m.S pk)
    (level : 1 ≤ m.level) (bound : m.level ≤ n) :
    Gives m.inc_i1 fun t => ∃ S, t = { m with S := S } ∧ S.length = n + 1 ∧
      Counted S (pk + 1) := by
  have found := List.getElem?_eq_getElem (show m.level < m.S.length by omega)
  have above := List.getElem?_eq_getElem (show m.level - 1 < m.S.length by omega)
  unfold Search.inc_i1
  apply gives_bind_of_eq found
  apply gives_some
  refine ⟨_, rfl, by rw [List.length_set]; exact length, ?_⟩
  have old := counted_level counted found
  have seen := counted.seen (m.level - 1) _ m.S[m.level] above
    (by rw [Nat.sub_add_cancel level]; exact found)
  apply counted_set _ counted level found
  · exact old.1
  · simp only
    omega
  · intro a at_a
    rw [above] at at_a
    rw [← Option.some.inj at_a]
    exact seen.2.1
  · simp only
    push_cast
    omega

/-- A search may start on the vertices `ys` that `R` holds: the numbers in `R` bound what can
still be found. -/
structure Ready (conn : Nat → Nat → Bool) (n : Nat) (R : Vertices) (ys : List Nat)
    (m : Search) : Prop where
  sane : Sane conn n m
  joined : Joined conn n m.Q.i ys
  level : 1 ≤ m.level ∧ m.level + ys.length ≤ n + 1
  ranked : ∃ first min_k, Ranked conn R ys min_k first ∧
    min_k ≤ (m.QMAX.i.length : Int) - m.Q.i.length + 1

/-- Platforms that sort alike and compare alike every fraction below one. -/
structure Interchangeable (maxStep : Int) (host host' : Platform) : Prop where
  sort : host.sort = host'.sort
  test : ∀ (i : Int) (pk : Nat), 0 ≤ i → i < pk → (pk : Int) ≤ maxStep + 1 →
    host.belowTlimit i pk = host'.belowTlimit i pk

theorem interchangeable_self (maxStep : Int) (host : Platform) :
    Interchangeable maxStep host host := ⟨rfl, fun _ _ _ _ _ => rfl⟩

def Explores (conn : Nat → Nat → Bool) (n : Nat) (maxStep : Int) (size : Nat)
    (inner inner' : Vertices → Search → Option Search) : Prop :=
  ∀ R ys m, 0 < ys.length → ys.length ≤ size → Ready conn n R ys m →
    Alike (inner R m) (inner' R m) (Searched conn n maxStep ys m)

/-- What the branch that takes one vertex has done. -/
structure Descended (conn : Nat → Nat → Bool) (n : Nat) (maxStep : Int) (zs : List Nat)
    (m t : Search) : Prop where
  sane : Sane conn n t
  q : t.Q = m.Q
  level : t.level = m.level
  grows : m.QMAX.i.length ≤ t.QMAX.i.length
  steps : m.pk ≤ t.pk
  limit : (t.pk : Int) ≤ maxStep + 1
  few : t.pk ≤ m.pk + 2 ^ zs.length
  covers : (t.pk : Int) ≤ maxStep → ∀ A, CliqueIn conn zs A →
    m.Q.i.length + A.length ≤ t.QMAX.i.length

variable {host' : Platform} {inner inner' : Vertices → Search → Option Search} {size : Nat}
  {zs : List Nat}

theorem resorted_gives (holds : Holds T zs) (inside : ∀ x ∈ zs, x < n) (low : Bool) :
    Gives (if low then degree_sort host conn n T else some T) fun U =>
      ∃ ys, ys.Perm zs ∧ Holds U ys := by
  apply gives_ite
  · intro _
    exact degree_sort_gives holds inside
  · intro _
    exact gives_some ⟨zs, List.Perm.refl _, holds⟩

/-- One colouring more, and a search among all the candidates in their new order. -/
theorem descended_searched {ws : List Nat} {C : List ColorClass} {t : Search} (perm : ws.Perm zs)
    (some_left : 0 < zs.length) (allowed : (m.pk : Int) ≤ maxStep)
    (searched : Searched conn n maxStep ws
      { m with pk := m.pk + 1, C := C, S := S, level := m.level + 1 } t) :
    Descended conn n maxStep zs m { t with level := t.level - 1 } := by
  have same_length := perm.length_eq
  have limit := searched.limit
  have few := searched.few
  have steps := searched.steps
  have back := searched.level
  rw [same_length] at few
  simp only at limit few steps back
  have s := searched.sane
  refine ⟨⟨s.caps, s.classes, s.length, s.counted, s.distinct, s.inside, s.clique⟩, searched.q,
    by simp only; omega, searched.grows, by simp only; omega, by simp only; omega,
    by simp only; omega, ?_⟩
  intro within A clique
  cases A with
  | nil =>
    obtain ⟨x, mem⟩ := List.exists_mem_of_length_pos (show 0 < ws.length by omega)
    have one := searched.covers within [x] (clique_singleton mem) (by simp)
    simp only [List.length_singleton, List.length_nil] at one ⊢
    omega
  | cons x A =>
    have subset : zs ⊆ ws := fun x mem => perm.symm.subset mem
    exact searched.covers within _ (clique_mono subset clique) (by simp)

theorem descended_improved (sane : Sane conn n m) (joined : Joined conn n m.Q.i [])
    (allowed : (m.pk : Int) ≤ maxStep) : Gives m.improve (Descended conn n maxStep [] m) := by
  apply gives_mono (improve_gives sane joined)
  intro t h
  obtain ⟨sane', q, same_level, pk, grows, best⟩ := h
  refine ⟨sane', q, same_level, grows, by omega, by omega,
    by rw [List.length_nil, Nat.pow_zero]; omega, ?_⟩
  intro _ A clique
  have := at_most_length conn _ A clique
  simp only [List.length_nil] at this
  omega

theorem descend_dyn_alike (hosts : Interchangeable maxStep host host')
    (explores : Explores conn n maxStep size inner inner') (sane : Sane conn n m)
    (holds : Holds T zs) (joined : Joined conn n m.Q.i zs) (short : zs.length ≤ size)
    (level : 1 ≤ m.level) (deep : m.level + zs.length ≤ n) (allowed : (m.pk : Int) ≤ maxStep) :
    Alike (descend_dyn host conn n inner T m) (descend_dyn host' conn n inner' T m)
      (Descended conn n maxStep zs m) := by
  have length := sane.length
  have inside : ∀ x ∈ zs, x < n := fun x mem => joined.inside x (by simp [mem])
  have positive := Nat.two_pow_pos zs.length
  unfold descend_dyn
  rw [holds.size]
  apply alike_ite
  · intro some_left
    have found := List.getElem?_eq_getElem (show m.level < m.S.length by omega)
    apply alike_bind_of_eq found
    have count := counted_bound sane.counted found
    have same_test := hosts.test m.S[m.level].i1 (m.pk + 1) count.1 (by push_cast; omega)
      (by push_cast; omega)
    have same_sort : degree_sort host' conn n T = degree_sort host conn n T := by
      unfold degree_sort Vertices.sort
      rw [hosts.sort]
    simp only [← same_test, same_sort]
    apply alike_bind_same (resorted_gives holds inside _)
    intro U h
    obtain ⟨ys, perm, holds'⟩ := h
    have same_length := perm.length_eq
    have joined' := joined_perm joined perm
    apply alike_bind_same (color_sort_gives (m := { m with pk := m.pk + 1 }) holds' (List.nodup_append.mp joined'.nodup).2.1
      (fun x mem => joined'.inside x (by simp [mem])) (by omega) (by omega) sane.classes)
    intro r colored
    obtain ⟨W, m'⟩ := r
    obtain ⟨⟨ws, first, perm', ranked⟩, C, classes, same⟩ := colored
    simp only at same ranked ⊢
    subst same
    have same_length' := perm'.length_eq
    apply alike_bind_same (inc_gives (m := { m with pk := m.pk + 1, C := C }) length sane.counted level
      (by simp only; omega))
    intro m'' h
    obtain ⟨S, same, length', counted⟩ := h
    subst same
    have ready : Ready conn n W ws { m with
        pk := m.pk + 1, C := C, S := S, level := m.level + 1 } := by
      refine ⟨⟨sane.caps, classes, length', counted, sane.distinct, sane.inside, sane.clique⟩,
        joined_perm joined' perm', ⟨by simp, ?_⟩, first, _, ranked, Int.le_refl _⟩
      simp only
      omega
    apply alike_bind
    apply alike_mono (explores W ws _ (by omega) (by omega) ready)
    intro t searched
    apply alike_some
    exact descended_searched (perm'.trans perm) (by omega) allowed searched
  · intro none_left
    have empty : zs = [] := by
      rw [← List.length_eq_zero_iff]
      omega
    subst empty
    exact alike_of_gives (descended_improved sane joined allowed)

theorem holds_take {k : Nat} (holds : Holds R ys) (le : k ≤ ys.length) :
    Holds { R with sz := k } (ys.take k) := by
  have room := holds.room
  refine ⟨by simp only [List.length_take]; omega, by simp only [List.length_take]; omega, ?_⟩
  intro l x found
  have bound := (List.getElem?_eq_some_iff.mp found).1
  rw [List.length_take] at bound
  rw [List.getElem?_take_of_lt (by omega)] at found
  exact holds.each l x found

theorem pushQ_gives {v : Nat} (sane : Sane conn n m) (joined : Joined conn n m.Q.i (xs ++ [v])) :
    m.pushQ v = some { m with Q := { m.Q with i := m.Q.i ++ [v] } } := by
  have room := joined_length joined
  rw [List.length_append, List.length_singleton] at room
  unfold Search.pushQ ColorClass.push
  rw [if_pos (by rw [sane.caps.1]; omega)]
  rfl

theorem number_gives {first k : Nat} {min_k : Int} (ranked : Ranked conn R ys min_k first)
    (bound : k < ys.length) (numbered : first ≤ k + 1)
    (slack : min_k ≤ (m.QMAX.i.length : Int) - m.Q.i.length + 1) :
    ∃ d, R.get_degree k = some d ∧ (m.QMAX.i.length < m.Q.i.length + d → first ≤ k) ∧
      ∀ A, CliqueIn conn (ys.take (k + 1)) A →
        A.length ≤ d ∨ m.Q.i.length + A.length ≤ m.QMAX.i.length := by
  by_cases here : first ≤ k
  · obtain ⟨d, found, most⟩ := ranked.numbers k here bound
    exact ⟨d, found, fun _ => here, fun A clique => Or.inl (most A clique)⟩
  · have last : first = k + 1 := by omega
    subst last
    have one := ranked.few (by omega) [ys[k]] (clique_singleton (by
      rw [List.take_succ_eq_append_getElem bound]
      exact List.mem_append_right _ (List.mem_singleton_self _)))
    rw [List.length_singleton] at one
    refine ⟨0, ranked.fence (by omega), by omega, ?_⟩
    intro A clique
    have := ranked.few (by omega) A clique
    right
    omega

section Branch
variable {v : Nat} {t u : Search}

theorem branch_back (descended : Descended conn n maxStep zs
    { m with Q := { m.Q with i := m.Q.i ++ [v] } } t) : t.popQ.Q = m.Q := by
  unfold Search.popQ ColorClass.pop
  rw [descended.q, List.dropLast_concat]

theorem branch_sane (sane : Sane conn n m) (descended : Descended conn n maxStep zs
    { m with Q := { m.Q with i := m.Q.i ++ [v] } } t) : Sane conn n t.popQ := by
  have s := descended.sane
  have caps : t.popQ.Q.cap = n := by
    rw [branch_back descended]
    exact sane.caps.1
  exact ⟨⟨caps, s.caps.2⟩, s.classes, s.length, s.counted, s.distinct, s.inside, s.clique⟩

/-- The branch that takes `v`, and then the search without it. -/
theorem searched_branch (descended : Descended conn n maxStep (xs.filter (conn v))
      { m with Q := { m.Q with i := m.Q.i ++ [v] } } t)
    (searched : Searched conn n maxStep xs t.popQ u) :
    Searched conn n maxStep (xs ++ [v]) m u := by
  have back := branch_back descended
  have fewer := List.length_filter_le (conn v) xs
  have power := Nat.pow_le_pow_right (show 0 < 2 by decide) fewer
  have grows := descended.grows
  have steps := descended.steps
  have limit := descended.limit
  have made := descended.few
  have grows' := searched.grows
  have steps' := searched.steps
  have limit' := searched.limit
  have made' := searched.few
  simp only at grows steps made
  simp only [Search.popQ] at grows' steps' limit' made'
  refine ⟨searched.sane, searched.q.trans back, searched.level.trans descended.level, by omega,
    by omega, by omega, ?_, ?_⟩
  · rw [List.length_append, List.length_singleton, Nat.pow_succ]
    omega
  · intro within A clique positive
    rcases clique_split clique with old | new
    · have := searched.covers within A old positive
      rw [back] at this
      exact this
    · have best := descended.covers (by omega) _ new.2
      have size := List.length_erase_of_mem new.1
      simp only [List.length_append, List.length_singleton] at best
      omega

end Branch

theorem expandLoop_dyn_alike {first : Nat} {min_k : Int}
    (hosts : Interchangeable maxStep host host')
    (explores : Explores conn n maxStep size inner inner') (ranked : Ranked conn R ys min_k first)
    (k : Nat) (le : k ≤ ys.length) (few : k ≤ size + 1) (numbered : first ≤ k)
    (sane : Sane conn n m) (joined : Joined conn n m.Q.i (ys.take k)) (level : 1 ≤ m.level)
    (deep : m.level + k ≤ n + 1)
    (slack : min_k ≤ (m.QMAX.i.length : Int) - m.Q.i.length + 1) :
    Alike (expandLoop_dyn host conn n maxStep inner R k m)
      (expandLoop_dyn host' conn n maxStep inner' R k m)
      (Searched conn n maxStep (ys.take k) m) := by
  induction k generalizing m with
  | zero =>
    apply alike_some
    apply searched_stop sane
    intro _ A clique positive
    have := at_most_length conn _ A clique
    simp only [List.take_zero, List.length_nil] at this
    omega
  | succ k ih =>
    have whole := List.take_succ_eq_append_getElem (show k < ys.length by omega)
    have length : (ys.take k).length = k := by
      rw [List.length_take]
      omega
    unfold expandLoop_dyn
    apply alike_ite
    · intro stopped
      apply alike_some
      apply searched_stop sane
      omega
    · intro allowed
      obtain ⟨d, number, live, most⟩ := number_gives ranked (by omega) numbered slack
      apply alike_bind_of_eq number
      apply alike_ite
      · intro promising
        rw [whole] at joined
        apply alike_bind_of_eq (ranked.holds.each k _ (List.getElem?_eq_getElem (by omega)))
        apply alike_bind_of_eq (pushQ_gives sane joined)
        have holds := holds_take ranked.holds le
        rw [whole] at holds
        have cut := cut2_gives conn (n := n) holds
          (fun x mem => joined.inside x (List.mem_append_right _ mem))
        rw [length] at cut
        apply alike_bind_same cut
        intro T candidates
        have fewer := List.length_filter_le (conn ys[k]) (ys.take k)
        rw [length] at fewer
        have taken : Sane conn n { m with Q := { m.Q with i := m.Q.i ++ [ys[k]] } } :=
          ⟨sane.caps, sane.classes, sane.length, sane.counted, sane.distinct, sane.inside,
            sane.clique⟩
        apply alike_bind
        apply alike_mono (descend_dyn_alike hosts explores taken candidates (joined_take joined)
          (by omega) level (by simp only; omega) (by simp only; omega))
        intro t descended
        have back := branch_back descended
        have grows := descended.grows
        have same_level := descended.level
        simp only at grows same_level
        have fewer_left : Joined conn n t.popQ.Q.i (ys.take k) := by
          rw [back]
          exact joined_sublist joined (List.sublist_append_left _ _)
        have rest := ih (m := t.popQ) (by omega) (by omega) (live promising)
          (branch_sane sane descended) fewer_left (by simp only [Search.popQ]; omega)
          (by simp only [Search.popQ]; omega) (by rw [back]; simp only [Search.popQ]; omega)
        apply alike_mono rest
        intro u searched
        rw [whole]
        exact searched_branch descended searched
      · intro hopeless
        apply alike_some
        apply searched_stop sane
        intro _ A clique _
        rcases most A clique with small | beaten
        · omega
        · exact beaten

theorem expand_dyn_explores (hosts : Interchangeable maxStep host host') (depth : Nat) :
    Explores conn n maxStep depth (expand_dyn host conn n maxStep depth)
      (expand_dyn host' conn n maxStep depth) := by
  induction depth with
  | zero => intro R ys m positive few; omega
  | succ depth ih =>
    intro R ys m positive few ready
    obtain ⟨first, min_k, ranked, slack⟩ := ready.ranked
    have level := ready.level
    unfold expand_dyn
    apply alike_bind_same (enter_gives ready.sane level.1 (by omega))
    intro t entered
    obtain ⟨S, same, length, counted⟩ := entered
    subst same
    have s := ready.sane
    have sane : Sane conn n { m with S := S } :=
      ⟨s.caps, s.classes, length, counted, s.distinct, s.inside, s.clique⟩
    have joined := ready.joined
    rw [← List.take_length (l := ys)] at joined
    have loop := expandLoop_dyn_alike (m := { m with S := S }) hosts ih ranked ys.length
      (Nat.le_refl _) (by omega) ranked.inside sane joined level.1 level.2 slack
    rw [List.take_length] at loop
    rw [ranked.holds.size]
    apply alike_mono loop
    intro u searched
    exact ⟨searched.sane, searched.q, searched.level, searched.grows, searched.steps,
      searched.limit, searched.few, searched.covers⟩

end Branches
end Maxclique
end EvalMaxSat
