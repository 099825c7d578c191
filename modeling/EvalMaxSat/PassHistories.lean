import EvalMaxSat.Disciplines

/-!
The at-most-one passes from every state in the middle of a solve: they end, and all that they
rewrite are cliques. An overflow of the weights takes both away.
-/
namespace EvalMaxSat
open Literals OrderedContainers EvalMaxSAT StepProgram

variable {K : Type} {env : Env K} {core : K} {s t u : EvalMaxSAT K} {d : Story}
  {path : List (EvalMaxSAT K)}

section Cliques

/-- Distinct soft literals of which no model makes two true. -/
structure CliqueOf (s : EvalMaxSAT K) (c : Clause) : Prop where
  distinct : c.Nodup
  soft : ∀ l ∈ c, 0 < s.weight l
  exclusive : Exclusive s.solver.clauses c

/-- The program ends, and every clause it gives to `processAtMostOne` is a clique. -/
def RewritesCliques {α : Type} (m : Program K α) (s : EvalMaxSAT K) : Prop :=
  ∃ tr a t, m.Ends s tr (.done a) t ∧ ∀ e ∈ tr, ∀ c, e.label = .clique c → CliqueOf e.before c

theorem rewritesCliques_of_wp {α : Type} {m : Program K α} {Q : α → EvalMaxSAT K → Prop}
    (h : Wp (StepOk none) m Q s) : RewritesCliques m s := by
  obtain ⟨tr, a, t, ends, ok, _⟩ := h
  refine ⟨tr, a, t, ends, fun e mem c label => ?_⟩
  obtain ⟨_, _, effect⟩ := ok e mem
  rw [label] at effect
  obtain ⟨_, distinct, soft, exclusive⟩ := effect
  exact ⟨distinct, soft, exclusive⟩

/-- Only true cliques are rewritten, from any state in the middle of a solve, whatever the back end
answers from there on. -/
theorem passes_rewrite_cliques (sound : env.Sound) (h : History env core fittingCall d path s)
    (visited : t ∈ path) (start : t.startSolve = true) {next : Env K} (sound' : next.Sound) :
    RewritesCliques (adapt_am1_exact next) t ∧ RewritesCliques (adapt_am1_FastHeuristicV7 next) t ∧
      RewritesCliques (adapt_am1_VeryFastHeuristic next) t := by
  have sane := (history_between sound h).2 t visited
  exact ⟨rewritesCliques_of_wp (wp_adapt_am1_exact sound' sane start),
    rewritesCliques_of_wp (wp_adapt_am1_FastHeuristicV7 sound' sane start),
    rewritesCliques_of_wp (wp_adapt_am1_VeryFastHeuristic sound' sane start)⟩

theorem smallScript_visits : ∃ d path s, History referenceBackEnd () fittingCall d path s ∧
    ∃ t ∈ path, t.startSolve = true := by
  obtain ⟨d, path, s, history, test⟩ := history_of_replay referenceBackEnd () fittingCall 60
    smallScript (fun r => r.2.1.any fun t => t.startSolve) (by decide +kernel)
  exact ⟨d, path, s, history, List.any_eq_true.mp test⟩

theorem passes_rewrite_cliques_small : ∃ t : EvalMaxSAT Unit, t.startSolve = true ∧
    RewritesCliques (adapt_am1_exact idleBackEnd) t ∧
      RewritesCliques (adapt_am1_FastHeuristicV7 idleBackEnd) t ∧
      RewritesCliques (adapt_am1_VeryFastHeuristic idleBackEnd) t := by
  obtain ⟨d, path, s, history, t, visited, start⟩ := smallScript_visits
  exact ⟨t, start, passes_rewrite_cliques reference_sound history visited start idle_sound⟩

theorem overflow_rewrites_no_clique : ¬ ∀ (env : Env Unit) (d : Story) (path : List (EvalMaxSAT Unit))
    (s t : EvalMaxSAT Unit) (next : Env Unit), env.Sound → History env () positiveCall d path s →
    t ∈ path → t.startSolve = true → next.Sound →
    RewritesCliques (adapt_am1_exact next) t ∧ RewritesCliques (adapt_am1_FastHeuristicV7 next) t ∧
      RewritesCliques (adapt_am1_VeryFastHeuristic next) t := by
  intro claim
  obtain ⟨d, path, s, history, test⟩ := history_of_replay referenceBackEnd () positiveCall 60
    (overflowScript ++ [.solve]) (fun r => r.2.1.any fun t => t.startSolve &&
      endTest (adapt_am1_FastHeuristicV7 referenceBackEnd) 60 (fun tr _ _ => tr.any fun e =>
        match e.label with
        | .clique c => c.any fun l => e.before.weight l ≤ 0
        | _ => false) t) (by decide +kernel)
  obtain ⟨t, visited, found⟩ := List.any_eq_true.mp test
  obtain ⟨start, found⟩ := (Bool.and_eq_true _ _).mp found
  obtain ⟨_, ⟨tr, a, u, ends, cliques⟩, _⟩ := claim _ d path s t _ reference_sound history visited
    start reference_sound
  obtain ⟨tr', b, v, ends', found⟩ := ends_of_endTest found
  obtain ⟨rfl, _⟩ := Prog.ends_unique ends ends'
  obtain ⟨e, mem, bad⟩ := List.any_eq_true.mp found
  split at bad
  · rename_i c label
    obtain ⟨l, inC, light⟩ := List.any_eq_true.mp bad
    have := (cliques e mem c label).soft l inC
    have := of_decide_eq_true light
    omega
  · simp at bad

end Cliques

section Endings

def Terminates {α : Type} (m : Program K α) (s : EvalMaxSAT K) : Prop :=
  ∃ tr a t, m.Ends s tr (.done a) t

theorem terminates_of_wp {α : Type} {m : Program K α} {Q : α → EvalMaxSAT K → Prop}
    (h : Wp (StepOk none) m Q s) : Terminates m s := by
  obtain ⟨tr, a, t, ends, _⟩ := h
  exact ⟨tr, a, t, ends⟩

/-- The passes end from any state in the middle of a solve, whatever the back end answers from
there on. -/
theorem passes_end (sound : env.Sound) (h : History env core fittingCall d path s)
    (visited : t ∈ path) (start : t.startSolve = true) {next : Env K} (sound' : next.Sound) :
    Terminates (adapt_am1_exact next) t ∧ Terminates (adapt_am1_FastHeuristicV7 next) t ∧
      Terminates (adapt_am1_VeryFastHeuristic next) t := by
  have sane := (history_between sound h).2 t visited
  exact ⟨terminates_of_wp (wp_adapt_am1_exact sound' sane start),
    terminates_of_wp (wp_adapt_am1_FastHeuristicV7 sound' sane start),
    terminates_of_wp (wp_adapt_am1_VeryFastHeuristic sound' sane start)⟩

theorem passes_end_small : ∃ t : EvalMaxSAT Unit, t.startSolve = true ∧
    Terminates (adapt_am1_exact idleBackEnd) t ∧ Terminates (adapt_am1_FastHeuristicV7 idleBackEnd) t ∧
      Terminates (adapt_am1_VeryFastHeuristic idleBackEnd) t := by
  obtain ⟨d, path, s, history, t, visited, start⟩ := smallScript_visits
  exact ⟨t, start, passes_end reference_sound history visited start idle_sound⟩

/-- A back end that refutes every literal but the first, where the clauses are contradictory. -/
def restlessBackEnd : Env Unit :=
  { referenceBackEnd with propagate := fun _ f as =>
      (if f.contains [] ∧ ¬ f.contains [1] ∧ ¬ f.contains [-1] ∧ ¬ as.contains 1 ∧ ¬ as.contains (-1)
        then some [1, -1] else some [], ()) }

theorem restless_sound : restlessBackEnd.Sound where
  sat := reference_sound.sat
  unsat := reference_sound.unsat
  complete := reference_sound.complete
  implied := by
    intro k f as prop answer l mem m models
    simp only [restlessBackEnd, List.contains_iff_mem] at answer
    split at answer
    · rename_i contradictory
      obtain ⟨l, absurd_l, _⟩ := models [] contradictory.1
      simp at absurd_l
    · rw [← Option.some.inj answer] at mem
      simp at mem
  newly := by
    intro k f as prop answer
    simp only [restlessBackEnd, List.contains_iff_mem] at answer
    split at answer
    · rename_i contradictory
      obtain ⟨_, notOne, notMinus, one, minus⟩ := contradictory
      rw [← Option.some.inj answer]
      refine ⟨by decide, fun l mem => ?_⟩
      simp only [List.mem_cons, List.not_mem_nil, or_false] at mem
      rcases mem with rfl | rfl
      · exact ⟨by decide, one, minus, notOne, notMinus⟩
      · exact ⟨by decide, minus, one, notMinus, notOne⟩
    · rw [← Option.some.inj answer]
      simp
  failing := by
    intro k f as answer
    simp only [restlessBackEnd, List.contains_iff_mem] at answer
    split at answer <;> simp at answer
  permutes := reference_sound.permutes
  clique := reference_sound.clique

/-- The sweep is at variable `v`, the last one, whose weight is the least `long long`. -/
structure Turning (v : Nat) (s : EvalMaxSAT Unit) : Prop where
  two : 2 ≤ v
  size : s.poids.weight.length = v + 1
  vars : s.solver.nVar = v
  last : s.poids.weight.getD v 0 = -2 ^ 63
  first : s.poids.weight.getD 1 0 = 1 ∨ s.poids.weight.getD 1 0 = 1 - 2 ^ 63
  entries : ∀ e ∈ s.mapAssum2Card, e = none
  start : s.startSolve = true
  empty : [] ∈ s.solver.clauses
  units : [1] ∉ s.solver.clauses ∧ [-1] ∉ s.solver.clauses

theorem cardOf_none (entries : ∀ e ∈ s.mapAssum2Card, e = none) (v : Nat) : s.cardOf v = none := by
  rw [EvalMaxSAT.cardOf, List.getD_eq_getElem?_getD]
  cases found : s.mapAssum2Card[v]? with
  | none => rfl
  | some e => exact entries e (List.mem_of_getElem? found)

theorem get_add_least (v : WeightVector) (lit l : Int) (inside : lit.natAbs < v.weight.length) :
    (v.add lit (-2 ^ 63)).weight.getD l.natAbs 0 =
      if l.natAbs = lit.natAbs then i64 (v.weight.getD l.natAbs 0 - 2 ^ 63)
      else v.weight.getD l.natAbs 0 := by
  have least : (if lit < 0 then i64 (-(-2 ^ 63)) else -2 ^ 63) = (-2 ^ 63 : Int) := by
    split <;> decide
  simp only [WeightVector.add, least]
  by_cases same : l.natAbs = lit.natAbs
  · rw [if_pos same, same, List.getD_eq_getElem?_getD, List.getElem?_set_self inside]
    rfl
  · rw [if_neg same, List.getD_eq_getElem?_getD, List.getElem?_set_ne (Ne.symm same),
      ← List.getD_eq_getElem?_getD]

theorem get_swept (v : WeightVector) {x : Int} {n : Nat} (unit : x.natAbs = 1) (two : 2 ≤ n)
    (size : v.weight.length = n + 1) (l : Int) :
    ((v.add x (-2 ^ 63)).add (-(n : Int)) (-2 ^ 63)).weight.getD l.natAbs 0 =
      if l.natAbs = 1 ∨ l.natAbs = n then i64 (v.weight.getD l.natAbs 0 - 2 ^ 63)
      else v.weight.getD l.natAbs 0 := by
  rw [get_add_least _ _ _ (by simp [WeightVector.add]; omega), get_add_least _ _ _ (by omega)]
  by_cases one : l.natAbs = 1
  · rw [if_neg (by omega), if_pos (by omega), if_pos (Or.inl one)]
  · by_cases last : l.natAbs = n
    · rw [if_pos (by omega), if_neg (by omega), if_pos (Or.inr last)]
    · rw [if_neg (by omega), if_neg (by omega), if_neg (by omega)]

theorem peel_turning {v : Nat} {s : EvalMaxSAT Unit} {x : Int} (inv : Turning v s)
    (unit : x = 1 ∨ x = -1) : ∃ m, peel (-2 ^ 63) 2 0 [x, -(v : Int)] s = ([x],
      { s with mapWeight2Assum := m, poids := (s.poids.add x (-2 ^ 63)).add (-(v : Int)) (-2 ^ 63) }) := by
  have two := inv.two
  have flip : i64 (-(-2 ^ 63)) = -2 ^ 63 := by decide
  have heavy : (s.poids.add x (-2 ^ 63)).get x ≠ 0 := by
    have entry := get_add_least s.poids x x (by have := inv.size; omega)
    rw [if_pos rfl] at entry
    rw [WeightVector.get, entry]
    rcases unit with rfl | rfl <;> rcases inv.first with e | e <;>
      simp only [Int.natAbs_one, Int.natAbs_neg, e] <;> decide
  have gone : ((s.poids.add x (-2 ^ 63)).add (-(v : Int)) (-2 ^ 63)).get (-(v : Int)) = 0 := by
    have entry := get_swept s.poids (x := x) (by omega) two inv.size (-(v : Int))
    rw [if_pos (Or.inr (by omega)), Int.natAbs_neg, Int.natAbs_natCast, inv.last] at entry
    rw [WeightVector.get, Int.natAbs_neg, Int.natAbs_natCast, entry]
    split <;> decide
  simp only [peel, List.getElem?_cons_zero, List.getElem?_cons_succ, EvalMaxSAT.weight, flip, heavy,
    gone, if_true, if_false]
  rw [relax_none]
  · exact ⟨_, rfl⟩
  · exact cardOf_none inv.entries _

theorem addClause_least {s : EvalMaxSAT Unit} {n : Nat} {p : List Int} (start : s.startSolve = true)
    (vars : s.solver.nVar = n) (poids : s.poids.weight = p) {a b : Int} (within : Within n [a, b]) :
    ∃ t, s.addClause [a, b] (some (-2 ^ 63)) = some (((n + 1 : Nat) : Int), t) ∧
      t.poids.weight = p ++ [-2 ^ 63] ∧ t.solver.nVar = n + 1 ∧
      t.mapAssum2Card = s.mapAssum2Card ++ [none] ∧ t.startSolve = true ∧
      t.solver.clauses = s.solver.clauses ++ [[-((n + 1 : Nat) : Int), a],
        [-((n + 1 : Nat) : Int), b]] := by
  subst vars poids
  have soft : s.newSoftVar true (i64 (-(-2 ^ 63))) = (((s.solver.nVar + 1 : Nat) : Int),
      { s with
        solver := { s.solver with nVar := s.solver.nVar + 1 }
        poids := ⟨s.poids.weight ++ [-2 ^ 63]⟩
        mapAssum2Card := s.mapAssum2Card ++ [none]
        mapWeight2Assum := (s.newSoftVar true (i64 (-(-2 ^ 63)))).2.mapWeight2Assum }) := rfl
  have hard : ∀ (u : EvalMaxSAT Unit) (x y : Int), u.addHardClause [x, y] =
      { u with solver := u.solver.addClause [x, y] } := fun _ _ _ => rfl
  have pair : ∀ l ∈ [a, b], Within (s.solver.nVar + 1) [-((s.solver.nVar + 1 : Nat) : Int), l] := by
    intro l mem k inPair
    obtain ⟨nonzero, bound⟩ := within l mem
    simp only [List.mem_cons, List.not_mem_nil, or_false] at inPair
    rcases inPair with rfl | rfl
    · omega
    · exact ⟨nonzero, by omega⟩
  have one := addClause_eq (S := { s.solver with nVar := s.solver.nVar + 1 }) (pair a (by simp))
  have two := addClause_eq (S := { s.solver with
    nVar := s.solver.nVar + 1
    clauses := s.solver.clauses ++ [[-((s.solver.nVar + 1 : Nat) : Int), a]] }) (pair b (by simp))
  have eq : s.addClause [a, b] (some (-2 ^ 63)) = some (s.addSoftClause [a, b] (-2 ^ 63)) := by
    simp only [EvalMaxSAT.addClause]
    rw [if_neg (by decide), if_neg (by simp [start])]
  rw [eq]
  simp only [EvalMaxSAT.addSoftClause]
  rw [if_neg (by decide), soft]
  simp only [List.foldl_cons, List.foldl_nil, hard]
  rw [one, two]
  exact ⟨_, rfl, rfl, rfl, rfl, start, List.append_assoc _ _ _⟩

theorem amoRound_turning {v : Nat} {s : EvalMaxSAT Unit} {x : Int} (inv : Turning v s)
    (unit : x = 1 ∨ x = -1) (pos : 0 < s.weight x) : ∃ t,
      amoRound [x, -(v : Int)] s = (some ([x], ((v + 1 : Nat) : Int)), t) ∧ Turning (v + 1) t ∧
      t.weight (-(v : Int)) = 0 := by
  have two := inv.two
  have size := inv.size
  have vars := inv.vars
  have least : s.weight (-(v : Int)) = -2 ^ 63 := by
    rw [EvalMaxSAT.weight, WeightVector.get, Int.natAbs_neg, Int.natAbs_natCast, inv.last,
      if_pos (by omega)]
    decide
  have w : minWeightFrom (s.weight x) s [-(v : Int)] = -2 ^ 63 := by
    simp only [minWeightFrom, List.foldl_cons, List.foldl_nil, least]
    rw [if_pos (by omega)]
  obtain ⟨m, peeled⟩ := peel_turning inv unit
  have entry := get_swept s.poids (x := x) (by omega) two size
  have length : ((s.poids.add x (-2 ^ 63)).add (-(v : Int)) (-2 ^ 63)).weight.length = v + 1 := by
    simp [WeightVector.add, size]
  simp only [amoRound, List.headD_cons, List.tail_cons, w, List.length_cons, List.length_nil, peeled]
  obtain ⟨t, added, weights, vars', entries, start, clauses⟩ := addClause_least (a := x) (b := -(v : Int))
    (p := ((s.poids.add x (-2 ^ 63)).add (-(v : Int)) (-2 ^ 63)).weight) (s := { s with
      mapWeight2Assum := m
      poids := (s.poids.add x (-2 ^ 63)).add (-(v : Int)) (-2 ^ 63)
      cost := u64 (s.cost + -2 ^ 63 * (((0 + 1 + 1 : Nat) : Int) - 1)) }) inv.start vars rfl (by
    intro l mem
    simp only [List.mem_cons, List.not_mem_nil, or_false] at mem
    rcases mem with rfl | rfl <;> omega)
  rw [added]
  refine ⟨t, rfl, ⟨by omega, ?_, by omega, ?_, ?_, ?_, start, ?_, ?_⟩, ?_⟩
  · rw [weights, List.length_append, length]; rfl
  · rw [weights, List.getD_append_right _ _ _ _ (by omega), length, Nat.sub_self]
    rfl
  · have one := entry 1
    simp only [Int.natAbs_one, true_or, if_true] at one
    rw [weights, List.getD_append _ _ _ _ (by omega), one]
    rcases inv.first with e | e <;> rw [e]
    · exact Or.inr (by decide)
    · exact Or.inl (by decide)
  · rw [entries]
    intro e mem
    rcases List.mem_append.mp mem with old | new
    · exact inv.entries e old
    · exact List.mem_singleton.mp new
  · rw [clauses]
    exact List.mem_append_left _ inv.empty
  · rw [clauses]
    have units := inv.units
    simp [units.1, units.2]
  · have gone := entry (-(v : Int))
    rw [if_pos (Or.inr (by omega)), Int.natAbs_neg, Int.natAbs_natCast, inv.last] at gone
    rw [EvalMaxSAT.weight, WeightVector.get, Int.natAbs_neg, Int.natAbs_natCast, weights,
      List.getD_append _ _ _ _ (by omega), gone]
    split <;> decide

theorem wp_process_turning {v : Nat} {s : EvalMaxSAT Unit} {x : Int} (inv : Turning v s)
    (unit : x = 1 ∨ x = -1) (pos : 0 < s.weight x) :
    Wp (fun _ => True) (processAtMostOne [x, -(v : Int)]) (fun _ t => Turning (v + 1) t ∧
      t.weight (-(v : Int)) = 0) s := by
  obtain ⟨t, eq, next, gone⟩ := amoRound_turning inv unit pos
  apply wp_bind
  refine wp_act trivial (wp_loop_once ?_)
  refine wp_ite (fun _ => ?_) (fun short => absurd (by simp) short)
  apply wp_bind
  refine wp_act trivial ?_
  rw [eq]
  refine wp_pure (wp_loop_once ?_)
  refine wp_ite (fun long => absurd long (by simp)) (fun _ => ?_)
  exact wp_pure ⟨next, gone⟩

theorem wp_pair_turning {v : Nat} {s : EvalMaxSAT Unit} (inv : Turning v s) :
    Wp (fun _ => True) (pairRefuted (-(v : Int)) [1, -1]) (fun _ t => Turning (v + 1) t) s := by
  have positive : s.weight 1 = s.poids.weight.getD 1 0 := rfl
  have negative : s.weight (-1) = i64 (-(s.poids.weight.getD 1 0)) := rfl
  apply wp_bind
  rcases inv.first with e | e <;> rw [e] at positive negative
  · apply wp_bind (k := fun c => Prog.fold _ c [-1])
    apply wp_bind_read
    refine wp_ite (fun stop => absurd stop (by decide)) (fun _ => ?_)
    refine wp_ite (fun below => absurd below (by rw [positive]; decide)) (fun _ => wp_pure ?_)
    apply wp_bind (k := fun c => Prog.fold _ c [])
    apply wp_bind_read
    refine wp_ite (fun stop => absurd stop (by decide)) (fun _ => ?_)
    refine wp_ite (fun _ => ?_) (fun above => absurd (by rw [negative]; decide) above)
    apply wp_bind
    apply wp_mono (wp_process_turning inv (x := - -1) (Or.inl rfl) (by rw [neg_neg, positive]; decide))
    rintro _ t ⟨next, _⟩
    exact wp_bind_read (wp_pure (wp_pure (wp_pure next)))
  · apply wp_bind (k := fun c => Prog.fold _ c [-1])
    apply wp_bind_read
    refine wp_ite (fun stop => absurd stop (by decide)) (fun _ => ?_)
    refine wp_ite (fun _ => ?_) (fun above => absurd (by rw [positive]; decide) above)
    apply wp_bind
    apply wp_mono (wp_process_turning inv (x := -1) (Or.inr rfl) (by rw [negative]; decide))
    rintro _ t ⟨next, gone⟩
    refine wp_bind_read (wp_pure ?_)
    apply wp_bind (k := fun c => Prog.fold _ c [])
    apply wp_bind_read
    refine wp_ite (fun _ => ?_) (fun go => absurd (by simp [gone]) go)
    exact wp_pure (wp_pure (wp_pure next))

theorem turning_asked {v : Nat} {s t : EvalMaxSAT Unit} (inv : Turning v s) (asked : Asked s t) :
    Turning v t := by
  obtain ⟨core, last, rfl⟩ := asked
  exact ⟨inv.two, inv.size, inv.vars, inv.last, inv.first, inv.entries, inv.start, inv.empty, inv.units⟩

theorem restless_answer {s : EvalMaxSAT Unit} {v : Nat} (inv : Turning v s) (lit : Int) :
    (s.solver.propagate restlessBackEnd [lit]).1 =
      if lit.natAbs = 1 then some [] else some [1, -1] := by
  have units := inv.units
  simp only [Solver_cadical.propagate, restlessBackEnd, List.contains_iff_mem, List.mem_singleton]
  by_cases own : lit.natAbs = 1
  · rw [if_pos own, if_neg (by omega)]
  · rw [if_neg own, if_pos ⟨inv.empty, units.1, units.2, by omega, by omega⟩]

/-- The sweep never comes to an end: each variable brings another one. -/
theorem sweep_never {s : EvalMaxSAT Unit} (inv : Turning 2 s) (one : s.weight 1 = 1) :
    Never (adapt_am1_VeryFastHeuristic restlessBackEnd) s := by
  refine loop_never (fun b t => Turning b.1 t ∨ (b.1 = 1 ∧ Turning 2 t ∧ t.weight 1 = 1)) ?_
    (Or.inr ⟨rfl, inv, one⟩)
  rintro ⟨v, n⟩ t (turning | ⟨first, turning, one⟩)
  · replace turning : Turning v t := turning
    have two := turning.two
    have heavy : t.weight v = -2 ^ 63 := by
      rw [EvalMaxSAT.weight, WeightVector.get, if_neg (by omega), Int.natAbs_natCast, turning.last]
    have lit : t.softLit v = -(v : Int) := by
      rw [EvalMaxSAT.softLit, heavy, if_neg (by omega)]
    have answer := restless_answer turning (-(v : Int))
    rw [if_neg (by omega)] at answer
    apply wp_bind_read
    refine wp_ite (fun out => absurd turning.size (by simp only [WeightVector.size] at out; omega))
      (fun _ => ?_)
    refine wp_ite (fun zero => absurd zero (by rw [heavy]; decide)) (fun _ => ?_)
    rw [lit]
    apply wp_bind
    refine wp_act trivial ?_
    rw [answer]
    apply wp_bind
    apply wp_mono (wp_pair_turning (turning_asked turning ⟨_, t.solver.last, rfl⟩))
    intro k u next
    exact wp_pure ⟨_, rfl, Or.inl next⟩
  · obtain rfl : v = 1 := first
    have lit : t.softLit 1 = 1 := by
      rw [EvalMaxSAT.softLit, Nat.cast_one, one, if_pos (by decide)]
    have answer := restless_answer turning 1
    rw [if_pos Int.natAbs_one] at answer
    apply wp_bind_read
    refine wp_ite (fun out => absurd turning.size (by simp only [WeightVector.size] at out; omega))
      (fun _ => ?_)
    refine wp_ite (fun zero => absurd (one.symm.trans zero) (by decide)) (fun _ => ?_)
    rw [lit]
    apply wp_bind
    refine wp_act trivial ?_
    rw [answer]
    refine wp_bind (wp_bind (wp_pure (wp_pure ?_)))
    exact wp_pure ⟨_, rfl, Or.inl (turning_asked turning ⟨_, t.solver.last, rfl⟩)⟩

/-- A contradiction, and a soft clause whose weight overflows to the least `long long`. -/
def restlessScript : List Call :=
  [.update .newVar, .update .newVar, .update (.addClause [1] (some 1)),
    .update (.addClause [2] (some (2 ^ 62))), .update (.addClause [2] (some (2 ^ 62))),
    .update (.addClause [] none), .solve]

theorem overflow_never_ends : ¬ ∀ (env : Env Unit) (d : Story) (path : List (EvalMaxSAT Unit))
    (s t : EvalMaxSAT Unit) (next : Env Unit), env.Sound → History env () positiveCall d path s →
    t ∈ path → t.startSolve = true → next.Sound →
    Terminates (adapt_am1_exact next) t ∧ Terminates (adapt_am1_FastHeuristicV7 next) t ∧
      Terminates (adapt_am1_VeryFastHeuristic next) t := by
  intro claim
  obtain ⟨d, path, s, history, test⟩ := history_of_replay referenceBackEnd () positiveCall 60
    restlessScript (fun r => r.2.1.any fun t => decide (t.startSolve = true ∧ t.poids.weight = [0, 1, -2 ^ 63] ∧
      t.solver.nVar = 2 ∧ t.solver.clauses = [[]] ∧ t.mapAssum2Card = [none, none, none]))
    (by decide +kernel)
  obtain ⟨t, visited, found⟩ := List.any_eq_true.mp test
  obtain ⟨start, weights, vars, clauses, entries⟩ := of_decide_eq_true found
  obtain ⟨_, _, tr, a, u, ends⟩ := claim _ d path s t _ reference_sound history visited start
    restless_sound
  refine sweep_never (s := t) ⟨Nat.le_refl _, ?_, vars, ?_, ?_, ?_, start, ?_, ?_⟩ ?_ tr _ u ends
  · rw [weights]; rfl
  · rw [weights]; rfl
  · rw [weights]; exact Or.inl rfl
  · rw [entries]; simp
  · rw [clauses]; simp
  · rw [clauses]; simp
  · rw [EvalMaxSAT.weight, WeightVector.get, weights]
    rfl

end Endings
end EvalMaxSat
