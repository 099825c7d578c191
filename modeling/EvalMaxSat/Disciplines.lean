import EvalMaxSat.Bookkeeping

/-!
What every history keeps of the assumptions and of the levels of cardinalities.
-/
namespace EvalMaxSat
open Literals OrderedContainers EvalMaxSAT StepProgram

variable {K : Type} {env : Env K} {core : K} {s t u : EvalMaxSAT K} {d : Story}
  {path : List (EvalMaxSAT K)}

section Overflow

/-- Two soft clauses whose weights overflow to the least `long long`, and a lighter one. -/
def overflowScript : List Call :=
  [.update (.setIncremental true), .update .newVar, .update .newVar,
    .update (.addClause [1] (some (2 ^ 62))), .update (.addClause [1] (some (2 ^ 62))),
    .update (.addClause [2] (some 1)), .update (.addClause [1, -2] none)]

/-- A back end whose propagation finds nothing. -/
def idleBackEnd : Env Unit := { referenceBackEnd with propagate := fun _ _ _ => (some [], ()) }

theorem idle_sound : idleBackEnd.Sound where
  sat := reference_sound.sat
  unsat := reference_sound.unsat
  complete := reference_sound.complete
  implied := by
    intro k f as prop answer
    simp only [idleBackEnd, Option.some.injEq] at answer
    simp [← answer]
  newly := by
    intro k f as prop answer
    simp only [idleBackEnd, Option.some.injEq] at answer
    simp [← answer]
  failing := by
    intro k f as answer
    simp [idleBackEnd] at answer
  permutes := reference_sound.permutes
  clique := reference_sound.clique

end Overflow

section Assumptions

/-- The assumptions are exactly the soft literals of weight at least `w`. -/
def Tracks (s : EvalMaxSAT K) (w : Nat) (as : List Int) : Prop :=
  as = (s.initAssum w).elems ∧ ∀ l, l ∈ as ↔ (w : Int) ≤ s.weight l

/-- Wherever a solve looks at its assumptions, they are those of its stratum. -/
theorem assumptions_track (sound : env.Sound) (h : History env core fittingCall d path s) :
    ∃ tr b t, (solve env).Ends s tr (.done b) t ∧
      ∀ e ∈ tr, ∀ w as, e.label = .assums w as → Tracks e.before w as := by
  obtain ⟨between, _⟩ := history_between sound h
  obtain ⟨t, v, opening, main, b, _, ends⟩ := solve_phases sound between.sane
  refine ⟨_, b, _, ends, fun e mem w as label => ?_⟩
  obtain ⟨_, _, ok, _⟩ := steps_of_ends sound between.sane between.idle ends
  cases ok e mem with
  | enter _ _ => simp at label
  | leave _ => simp at label
  | inside okE =>
    obtain ⟨sane, _, effect⟩ := okE
    rw [label] at effect
    obtain ⟨_, least, same⟩ := effect
    refine ⟨same, fun l => ?_⟩
    rw [same]
    exact initAssum_spec sane.wf least l

theorem assumptions_track_small : ∃ s : EvalMaxSAT Unit, ∃ tr b t,
    (solve referenceBackEnd).Ends s tr (.done b) t ∧
      ∀ e ∈ tr, ∀ w as, e.label = .assums w as → Tracks e.before w as := by
  obtain ⟨d, path, s, history, _⟩ := history_of_replay referenceBackEnd () fittingCall 60
    smallScript (fun _ => true)
    (by decide +kernel)
  exact ⟨s, assumptions_track reference_sound history⟩

theorem overflow_breaks_assumptions : ¬ ∀ (env : Env Unit) (d : Story) (path : List (EvalMaxSAT Unit))
    (s : EvalMaxSAT Unit), env.Sound → History env () positiveCall d path s →
    ∀ tr b t, (solve env).Ends s tr (.done b) t →
      ∀ e ∈ tr, ∀ w as, e.label = .assums w as → Tracks e.before w as := by
  intro claim
  obtain ⟨d, path, s, history, test⟩ := history_of_replay idleBackEnd () positiveCall 60
    overflowScript (fun r => endTest (solve idleBackEnd) 60 (fun tr _ _ => tr.any fun e => match e.label with
      | .assums w as => as.any fun l => e.before.weight l < w
      | _ => false) r.2.2) (by decide +kernel)
  obtain ⟨tr, b, t, ends, found⟩ := ends_of_endTest test
  obtain ⟨e, mem, bad⟩ := List.any_eq_true.mp found
  split at bad
  · rename_i w as label
    obtain ⟨l, inAs, light⟩ := List.any_eq_true.mp bad
    have heavy := ((claim _ d path s idle_sound history tr b t ends e mem w as label).2 l).mp inAs
    have := of_decide_eq_true light
    omega
  · simp at bad

end Assumptions

section Levels
variable {c : Nat} {o p : CardObject}

def levelWeight (s : EvalMaxSAT K) (c k : Nat) : Int :=
  ((s.cards[c]?).bind fun o => o.card.output k).elim 0 fun x => s.weight (-x)

/-- The levels of cardinality `c` that gain weight from `s` to `t`, with the weight they have. -/
def raised (c : Nat) (s t : EvalMaxSAT K) : List (Nat × Int) :=
  ((List.range (((t.cards[c]?).map fun o => o.card.inputs.length).getD 0)).filter fun k =>
    levelWeight s c k < levelWeight t c k).map fun k => (k, levelWeight t c k)

/-- All that the levels of cardinality `c` receive along a path of states. -/
def received (c : Nat) : List (EvalMaxSAT K) → List (Nat × Int)
  | s :: t :: path => raised c s t ++ received c (t :: path)
  | _ => []

/-- The levels up to the current one, each with the weight of the cardinality. -/
def tally (c : Nat) (s : EvalMaxSAT K) : List (Nat × Int) :=
  ((s.cards[c]?).map fun o =>
    (List.range o.level).map fun i => (i + 1, (o.initialWeight : Int))).getD []

theorem levelWeight_cell (cell : s.cards[c]? = some o) (k : Nat) :
    levelWeight s c k = (o.card.output k).elim 0 fun x => s.weight (-x) := by
  simp [levelWeight, cell]

theorem levelWeight_made {k : Nat} {x : Int} (cell : s.cards[c]? = some o)
    (made : o.card.output k = some x) : levelWeight s c k = s.weight (-x) := by
  simp [levelWeight_cell cell, made]

theorem levelWeight_none (absent : s.cards[c]? = none) (k : Nat) : levelWeight s c k = 0 := by
  simp [levelWeight, absent]

theorem levelWeight_nonneg {ws : List Int} (wf : Wf ws s) (cell : s.cards[c]? = some o) (k : Nat) :
    0 ≤ levelWeight s c k := by
  rw [levelWeight_cell cell]
  cases made : o.card.output k with
  | none => exact Int.le_refl _
  | some x =>
    have := ((wf.cards c o cell).outputs k x made).1
    have := wf.weight_neg x
    change 0 ≤ s.weight (-x)
    omega

theorem levelWeight_other {ws : List Int} (wf : Wf ws s) (cell : s.cards[c]? = some o) {k : Nat}
    (other : k ≠ o.level) : levelWeight s c k = 0 := by
  rw [levelWeight_cell cell]
  cases made : o.card.output k with
  | none => rfl
  | some x =>
    by_contra weighted
    have opposite := wf.weight_neg x
    replace weighted : s.weight (-x) ≠ 0 := weighted
    exact other (((wf.cards c o cell).outputs k x made).2 (by omega)).1

theorem range_filter_one {n m : Nat} {p : Nat → Bool} (inside : m < n)
    (only : ∀ k, p k = true ↔ k = m) : (List.range n).filter p = [m] := by
  have same : p = fun k => k == m := by
    funext k
    rw [Bool.eq_iff_iff, only k, beq_iff_eq]
  rw [same, List.filter_beq, List.count_eq_one_of_mem List.nodup_range (List.mem_range.mpr inside)]
  rfl

theorem raised_settled {ws ks : List Int} (wf : Wf ws s) (wf' : Wf ks t) (cell : s.cards[c]? = some o)
    (cell' : t.cards[c]? = some p) (climbed : Climbed s t o p) (same : p.level = o.level)
    (settled : Settled s t o) : raised c s t = [] := by
  obtain ⟨x, made, falls⟩ := settled
  have none : ∀ k, ¬ levelWeight s c k < levelWeight t c k := by
    intro k
    by_cases current : k = o.level
    · subst current
      rw [levelWeight_made cell made, levelWeight_made cell' (climbed.outputs _ _ made)]
      omega
    · have := levelWeight_nonneg wf cell k
      rw [levelWeight_other wf' cell' (by rw [same]; exact current)]
      omega
  simp [raised, none]

theorem raised_reached {ks : List Int} (wf' : Wf ks t) (cell' : t.cards[c]? = some p)
    (reached : Reached t p) (before : levelWeight s c p.level = 0) (nonneg : ∀ k, 0 ≤ levelWeight s c k) :
    raised c s t = [(p.level, (p.initialWeight : Int))] := by
  obtain ⟨x, made, weight⟩ := reached
  have ok := wf'.cards c p cell'
  have current : levelWeight t c p.level = p.initialWeight := by
    rw [levelWeight_made cell' made, weight]
  have only : ∀ k, decide (levelWeight s c k < levelWeight t c k) = true ↔ k = p.level := by
    intro k
    rw [decide_eq_true_iff]
    constructor
    · intro gains
      by_contra other
      have := nonneg k
      rw [levelWeight_other wf' cell' other] at gains
      omega
    · rintro rfl
      have := ok.weight_pos
      omega
  rw [raised, cell', Option.map_some, Option.getD_some, range_filter_one ok.level_lt only,
    List.map_singleton, current]

theorem tally_step {n : Nat} {ws ks : List Int} (wf : Wf ws s) (wf' : Wf ks t) (climbs : Climbs n s t)
    (c : Nat) : tally c t = tally c s ++ raised c s t := by
  cases cell : s.cards[c]? with
  | none =>
    cases cell' : t.cards[c]? with
    | none => simp [tally, raised, cell, cell']
    | some p =>
      obtain ⟨fresh, first, reached⟩ := climbs.new c p cell cell'
      have raise := raised_reached (s := s) wf' cell' reached (levelWeight_none cell _) fun k =>
        Int.le_of_eq (levelWeight_none cell k).symm
      rw [raise, first]
      simp [tally, cell, cell', first]
  | some o =>
    obtain ⟨p, cell', climbed⟩ := climbs.old c o cell
    rcases climbed.level with ⟨same, settled⟩ | ⟨up, reached⟩
    · rw [raised_settled wf wf' cell cell' climbed same settled]
      simp [tally, cell, cell', same, climbed.weight]
    · have raise := raised_reached wf' cell' reached (levelWeight_other wf cell (by omega))
        (levelWeight_nonneg wf cell)
      rw [raise, up]
      simp [tally, cell, cell', up, climbed.weight, List.range_succ]

def Follows (s t : EvalMaxSAT K) : Prop := Sane s ∧ Sane t ∧ ∃ n, Climbs n s t

theorem received_append (c : Nat) (pre : List (EvalMaxSAT K)) (s t : EvalMaxSAT K) :
    received c (pre ++ [s, t]) = received c (pre ++ [s]) ++ raised c s t := by
  induction pre with
  | nil => simp [received]
  | cons u pre ih =>
    cases pre with
    | nil => simp [received]
    | cons v pre =>
      simp only [List.cons_append, received, List.append_assoc] at ih ⊢
      rw [ih]

theorem received_tally (c : Nat) {pre : List (EvalMaxSAT K)} (chain : (pre ++ [t]).IsChain Follows)
    (start : ∀ u ∈ (pre ++ [t]).head?, u.cards = []) : received c (pre ++ [t]) = tally c t := by
  induction pre using List.reverseRecOn generalizing t with
  | nil =>
    have none : t.cards = [] := start t (by simp)
    simp [received, tally, none]
  | append_singleton pre s ih =>
    rw [List.append_assoc, List.singleton_append] at chain start ⊢
    obtain ⟨left, last⟩ := List.isChain_append_cons_cons.mp chain
    obtain ⟨⟨sane, sane', n, climbs⟩, _⟩ := last
    rw [received_append, ih left (by cases pre <;> simpa using start),
      tally_step sane.wf sane'.wf climbs c]

theorem chain_follows {tr : Trace K} (steps : Chain s tr t)
    (ok : ∀ e ∈ tr, Follows e.before e.after) :
    (s :: tr.map Event.after).IsChain Follows ∧ (s :: tr.map Event.after).getLast? = some t := by
  induction tr generalizing s with
  | nil =>
    cases steps
    simp
  | cons e tr ih =>
    obtain ⟨rfl, rest⟩ := steps
    obtain ⟨chain, last⟩ := ih rest fun e mem => ok e (by simp [mem])
    refine ⟨List.isChain_cons_cons.mpr ⟨ok e (by simp), chain⟩, ?_⟩
    rw [List.map_cons, List.getLast?_cons_cons]
    exact last

theorem isChain_join {R : EvalMaxSAT K → EvalMaxSAT K → Prop} {xs ys : List (EvalMaxSAT K)}
    (left : xs.IsChain R) (last : xs.getLast? = some s) (right : (s :: ys).IsChain R) :
    (xs ++ ys).IsChain R := by
  obtain ⟨pre, rfl⟩ := List.getLast?_eq_some_iff.mp last
  rw [List.append_assoc, List.singleton_append]
  exact List.isChain_split.mpr ⟨left, right⟩

theorem getLast_join {xs ys : List (EvalMaxSAT K)} (last : xs.getLast? = some s)
    (right : (s :: ys).getLast? = some t) : (xs ++ ys).getLast? = some t := by
  obtain ⟨pre, rfl⟩ := List.getLast?_eq_some_iff.mp last
  rw [List.append_assoc, List.singleton_append, List.getLast?_append, right]
  rfl

theorem history_follows (sound : env.Sound) (h : History env core fittingCall d path s) :
    path.IsChain Follows ∧ path.head? = some (fresh core) ∧ path.getLast? = some s := by
  induction h with
  | fresh => simp
  | @update d path s u x t history allowed applied ih =>
    obtain ⟨chain, head, last⟩ := ih
    obtain ⟨between, _⟩ := history_between sound history
    obtain ⟨changed, _⟩ := changed_of_apply between allowed.1 allowed.2 applied
    have follows : Follows s t := ⟨between.sane, changed.sane, 0, changed.climbs⟩
    exact ⟨isChain_join chain last (by simpa using follows),
      by rw [List.head?_append, head]; rfl, getLast_join last (by simp)⟩
  | @solve d path s tr b t history allowed ends ih =>
    obtain ⟨chain, head, last⟩ := ih
    obtain ⟨between, _⟩ := history_between sound history
    obtain ⟨_, steps, ok, _⟩ := steps_of_ends sound between.sane between.idle ends
    obtain ⟨more, final⟩ := chain_follows steps fun e mem =>
      have sane := solveStep_sane (ok e mem)
      ⟨sane.1, sane.2, (stepped_of_solveStep (ok e mem)).climbs⟩
    exact ⟨isChain_join chain last more, by rw [List.head?_append, head]; rfl,
      getLast_join last final⟩

/-- Where cardinality `c` stands: one level at most has weight, and when the last one has none, its
literal waits to be relaxed, or is hard, or no level is left. -/
structure Paced (s : EvalMaxSAT K) (c : Nat) (o : CardObject) : Prop where
  one : ∀ j k, levelWeight s c j ≠ 0 → levelWeight s c k ≠ 0 → j = k
  spent : levelWeight s c o.level = 0 → ∃ x, o.card.output o.level = some x ∧
    (-x ∈ s.litToRelax ∨ [-x] ∈ s.solver.clauses ∨ o.level + 1 = o.card.inputs.length)

theorem paced_of_wf (wf : Wf s.litToRelax s) (cell : s.cards[c]? = some o) : Paced s c o where
  one := by
    have current : ∀ k, levelWeight s c k ≠ 0 → k = o.level := fun k weighted => by
      by_contra other
      exact weighted (levelWeight_other wf cell other)
    intro j k first second
    rw [current j first, current k second]
  spent := by
    intro none
    obtain ⟨x, made, state⟩ := (wf.cards c o cell).last
    rw [levelWeight_made cell made, wf.weight_neg] at none
    refine ⟨x, made, ?_⟩
    rcases state with soft | rest
    · omega
    · exact rest

/-- The levels of every cardinality get the weight of the cardinality one after another, each
once. -/
theorem levels_paced (sound : env.Sound) (h : History env core fittingCall d path s) :
    (∀ pre t post, path = pre ++ t :: post → ∀ c, received c (pre ++ [t]) = tally c t) ∧
      ∀ t ∈ path, ∀ (c : Nat) o, t.cards[c]? = some o → Paced t c o := by
  refine ⟨?_, fun t mem c o cell => paced_of_wf ((history_between sound h).2 t mem).wf cell⟩
  rintro pre t post rfl c
  obtain ⟨chain, head, _⟩ := history_follows sound h
  refine received_tally c (List.isChain_split.mp chain).1 fun u first => ?_
  have heads : (pre ++ [t]).head? = (pre ++ t :: post).head? := by cases pre <;> rfl
  have same : u = fresh core := Option.some.inj (first.symm.trans (heads.trans head))
  rw [same]
  rfl

/-- Of three soft variables at least two are false. -/
def coreScript : List Call :=
  [.update .newVar, .update .newVar, .update .newVar, .update (.addClause [1] (some 2)),
    .update (.addClause [2] (some 2)), .update (.addClause [3] (some 2)),
    .update (.addClause [-1, -2] none), .update (.addClause [-1, -3] none),
    .update (.addClause [-2, -3] none), .solve]

theorem levels_paced_core : ∃ path : List (EvalMaxSAT Unit),
    (∃ t ∈ path, t.cards ≠ []) ∧
    (∀ pre t post, path = pre ++ t :: post → ∀ c, received c (pre ++ [t]) = tally c t) := by
  obtain ⟨d, path, s, history, test⟩ := history_of_replay idleBackEnd () fittingCall 60
    coreScript (fun r => r.2.1.any fun t => decide (t.cards ≠ [])) (by decide +kernel)
  obtain ⟨t, mem, some⟩ := List.any_eq_true.mp test
  exact ⟨path, ⟨t, mem, of_decide_eq_true some⟩, (levels_paced idle_sound history).1⟩

theorem overflow_breaks_levels : ¬ ∀ (env : Env Unit) (d : Story) (path : List (EvalMaxSAT Unit))
    (s : EvalMaxSAT Unit), env.Sound → History env () positiveCall d path s →
    (∀ pre t post, path = pre ++ t :: post → ∀ c, received c (pre ++ [t]) = tally c t) ∧
      ∀ t ∈ path, ∀ (c : Nat) o, t.cards[c]? = some o → Paced t c o := by
  intro claim
  obtain ⟨d, path, s, history, test⟩ := history_of_replay idleBackEnd () positiveCall 60
    (overflowScript ++ [.solve]) (fun r => r.2.1.getLast?.any fun t => decide (received 0 r.2.1 ≠ tally 0 t))
    (by decide +kernel)
  obtain ⟨t, last, apart⟩ := (Option.any_eq_true _ _).mp test
  obtain ⟨pre, eq⟩ := List.getLast?_eq_some_iff.mp last
  have same := (claim _ d path s idle_sound history).1 pre t [] eq 0
  rw [← eq] at same
  exact of_decide_eq_true apart same

end Levels
end EvalMaxSat
