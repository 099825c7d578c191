import EvalMaxSat.Passes

/-!
The exact at-most-one pass: a graph over slots that hold literals, whose edges join soft
literals that no model makes true together.
-/
namespace EvalMaxSat
open Literals OrderedContainers LawfulSink EvalMaxSAT StepProgram

variable {K : Type} {env : Env K} {lo : Option LocalOptimizer2} {s t u : EvalMaxSAT K}

section Conn
variable {conn : Conn}

def EvalMaxSAT.Conn.Symm (conn : Conn) : Prop := ∀ i j, conn i j = conn j i

theorem clear_symm (symm : conn.Symm) (size i : Nat) : (conn.clear size i).Symm := by
  intro x y
  simp only [Conn.clear, symm x y]
  congr 1
  rw [eq_iff_iff]
  tauto

theorem link_iff {i j x y : Nat} :
    conn.link i j x y = true ↔ (x = i ∧ y = j) ∨ (x = j ∧ y = i) ∨ conn x y = true := by
  simp only [Conn.link]
  split <;> tauto

theorem linkRow_iff {assumption : List Int} {admitted : Nat → Bool} {i : Nat} {lit : Int}
    (ks : List Nat) {x y : Nat} :
    ks.foldl (fun conn k => if admitted k ∧ assumption[k]? = some (-lit) then conn.link i k
      else conn) conn x y = true ↔ conn x y = true ∨ ∃ k ∈ ks, admitted k = true ∧
        assumption[k]? = some (-lit) ∧ ((x = i ∧ y = k) ∨ (x = k ∧ y = i)) := by
  induction ks generalizing conn with
  | nil => simp
  | cons k ks ih =>
    rw [List.foldl_cons, ih]
    constructor
    · rintro (edge | ⟨j, mem, rest⟩)
      · split at edge
        · rename_i here
          rcases link_iff.mp edge with new | new | old
          · exact Or.inr ⟨k, by simp, here.1, here.2, Or.inl new⟩
          · exact Or.inr ⟨k, by simp, here.1, here.2, Or.inr new⟩
          · exact Or.inl old
        · exact Or.inl edge
      · exact Or.inr ⟨j, by simp [mem], rest⟩
    · rintro (old | ⟨j, mem, admitted, found, ends⟩)
      · left
        split
        · exact link_iff.mpr (Or.inr (Or.inr old))
        · exact old
      · rcases List.mem_cons.mp mem with same | mem
        · subst same
          left
          rw [if_pos ⟨admitted, found⟩]
          exact link_iff.mpr (ends.imp id Or.inl)
        · exact Or.inr ⟨j, mem, admitted, found, ends⟩

theorem linkAll_iff {assumption : List Int} {admitted : Nat → Bool} {i : Nat} (prop : List Int)
    {x y : Nat} : conn.linkAll assumption admitted i prop x y = true ↔
      conn x y = true ∨ ∃ k, admitted k = true ∧ (∃ lit ∈ prop, assumption[k]? = some (-lit)) ∧
        ((x = i ∧ y = k) ∨ (x = k ∧ y = i)) := by
  simp only [Conn.linkAll]
  induction prop generalizing conn with
  | nil => simp
  | cons lit prop ih =>
    rw [List.foldl_cons, ih, linkRow_iff, or_assoc]
    refine or_congr_right ?_
    constructor
    · rintro (⟨k, _, admitted, found, ends⟩ | ⟨k, admitted, ⟨l, mem, found⟩, ends⟩)
      · exact ⟨k, admitted, ⟨lit, by simp, found⟩, ends⟩
      · exact ⟨k, admitted, ⟨l, by simp [mem], found⟩, ends⟩
    · rintro ⟨k, admitted, ⟨l, mem, found⟩, ends⟩
      rcases List.mem_cons.mp mem with same | mem
      · subst same
        refine Or.inl ⟨k, ?_, admitted, found, ends⟩
        exact List.mem_range.mpr (List.getElem?_eq_some_iff.mp found).1
      · exact Or.inr ⟨k, admitted, ⟨l, mem, found⟩, ends⟩

theorem clear_iff {size i x y : Nat} (inX : x < size) (inY : y < size) :
    conn.clear size i x y = true ↔ conn x y = true ∧ x ≠ i ∧ y ≠ i := by
  simp only [Conn.clear]
  split
  · simp only [Bool.false_eq_true, false_iff]; tauto
  · have : x ≠ i ∧ y ≠ i := by tauto
    tauto

def NewEdge (assumption : List Int) (admitted : Nat → Bool) (i : Nat) (prop : List Int)
    (x y : Nat) : Prop :=
  ∃ k, admitted k = true ∧ ((x = i ∧ y = k) ∨ (x = k ∧ y = i)) ∧
    ∃ lit ∈ prop, assumption[k]? = some (-lit)

theorem linkAll_spec {a : List Int} {f : Nat → Bool} {i : Nat} (prop : List Int)
    (symm : conn.Symm) : (conn.linkAll a f i prop).Symm ∧
      ∀ x y, conn.linkAll a f i prop x y = true →
        conn x y = true ∨ NewEdge a f i prop x y := by
  constructor
  · intro x y
    have ends : ∀ k, ((x = i ∧ y = k) ∨ (x = k ∧ y = i)) ↔ ((y = i ∧ x = k) ∨ (y = k ∧ x = i)) := by
      intro k
      tauto
    rw [Bool.eq_iff_iff, linkAll_iff, linkAll_iff, symm x y]
    simp only [ends]
  · intro x y edge
    rcases (linkAll_iff prop).mp edge with old | ⟨k, admitted, ⟨l, mem, found⟩, ends⟩
    · exact Or.inl old
    · exact Or.inr ⟨k, admitted, ends, l, mem, found⟩

end Conn

/-- The slots of the exact pass. A slot whose literal was refuted keeps it, without edges. -/
structure Graph (s : EvalMaxSAT K) (g : Slots) : Prop where
  symm : g.conn.Symm
  edges : ∀ i j a b, g.conn i j = true → g.assumption[i]? = some a → g.assumption[j]? = some b →
    g.active i = true ∧ g.active j = true ∧ 0 < s.weight a ∧ 0 < s.weight b ∧
      Inconsistent s.solver.clauses [a, b]
  distinct : ∀ i j a, g.active i = true → g.active j = true → g.assumption[i]? = some a →
    g.assumption[j]? = some a → i = j
  alive : ∀ i a, g.active i = true → g.assumption[i]? = some a →
    0 < s.weight a ∨ [-a] ∈ s.solver.clauses
  inside : ∀ l ∈ g.assumption, l.natAbs ≤ s.solver.nVar

theorem graph_kept {g : Slots} (graph : Graph s g) (vars : s.solver.nVar ≤ t.solver.nVar)
    (clauses : s.solver.clauses ⊆ t.solver.clauses)
    (kept : ∀ i a, g.active i = true → g.assumption[i]? = some a → 0 < s.weight a →
      t.weight a = s.weight a) : Graph t g where
  symm := graph.symm
  edges := by
    intro i j a b edge atI atJ
    obtain ⟨actI, actJ, softA, softB, refuted⟩ := graph.edges i j a b edge atI atJ
    exact ⟨actI, actJ, by rw [kept i a actI atI softA]; exact softA,
      by rw [kept j b actJ atJ softB]; exact softB, inconsistent_mono clauses refuted⟩
  distinct := graph.distinct
  alive := by
    intro i a act at_i
    rcases graph.alive i a act at_i with soft | fixed
    · left; rw [kept i a act at_i soft]; exact soft
    · exact Or.inr (clauses fixed)
  inside := fun l mem => (graph.inside l mem).trans vars

section Build

theorem allSoft_spec (wf : Wf s.litToRelax s) :
    (s.mapWeight2Assum.entries.flatMap (fun e => e.2.elems)).Nodup ∧
      ∀ l ∈ s.mapWeight2Assum.entries.flatMap (fun e => e.2.elems), 0 < s.weight l := by
  have weight : ∀ e ∈ s.mapWeight2Assum.entries, ∀ l ∈ e.2.elems, 0 < e.1 ∧ s.weight l = e.1 := by
    intro e mem l inE
    exact (wf.indexed l e.1).mp ⟨e.2, OMap.mem_entries.mp mem, inE⟩
  refine ⟨List.nodup_flatMap.mpr ⟨fun e _ => e.2.nodup, ?_⟩, ?_⟩
  · refine (List.pairwise_map.mp s.mapWeight2Assum.sorted).imp_of_mem ?_
    intro d e memD memE less l inD inE
    have := (weight d memD l inD).2
    have := (weight e memE l inE).2
    omega
  · intro l mem
    obtain ⟨e, memE, inE⟩ := List.mem_flatMap.mp mem
    have := weight e memE l inE
    omega

theorem swapRemove_get {xs : List Int} {i j : Nat} {a : Int}
    (found : (swapRemove xs i)[j]? = some a) (ne : j ≠ i) : xs[j]? = some a := by
  simp only [swapRemove] at found
  split at found
  · exact found
  · rw [List.getElem?_dropLast] at found
    split at found
    · rwa [List.getElem?_set_ne (Ne.symm ne)] at found
    · simp at found

/-- The state of the loop that builds the graph: every slot is soft. -/
structure Building (s : EvalMaxSAT K) (assumption : List Int) (conn : Conn) : Prop where
  nodup : assumption.Nodup
  soft : ∀ l ∈ assumption, 0 < s.weight l
  symm : conn.Symm
  edges : ∀ i j a b, conn i j = true → assumption[i]? = some a → assumption[j]? = some b →
    Inconsistent s.solver.clauses [a, b]

theorem graph_of_building {assumption : List Int} {conn : Conn} (wf : Wf s.litToRelax s)
    (h : Building s assumption conn) : Graph s ⟨assumption, fun _ => true, conn⟩ where
  symm := h.symm
  edges := fun i j a b edge atI atJ => ⟨rfl, rfl, h.soft a (List.mem_of_getElem? atI),
    h.soft b (List.mem_of_getElem? atJ), h.edges i j a b edge atI atJ⟩
  distinct := by
    intro i j a _ _ atI atJ
    exact (List.getElem?_inj (List.getElem?_eq_some_iff.mp atI).1 h.nodup).mp (atI.trans atJ.symm)
  alive := fun i a _ at_i => Or.inl (h.soft a (List.mem_of_getElem? at_i))
  inside := fun l mem =>
    (wf.weighted_inside (by have := h.soft l mem; omega : s.weight l ≠ 0)).2

theorem building_link {assumption prop : List Int} {conn : Conn} {i : Nat} {lit : Int}
    (h : Building s assumption conn) (here : assumption[i]? = some lit)
    (implied : Implied s.solver.clauses [lit] prop) :
    Building s assumption (conn.linkAll assumption (· ≠ i) i prop) := by
  obtain ⟨symm, edges⟩ := linkAll_spec (a := assumption) (f := (· ≠ i)) (i := i) prop
    h.symm
  refine ⟨h.nodup, h.soft, symm, ?_⟩
  intro x y a b edge atX atY
  rcases edges x y edge with old | ⟨k, _, ends, l, mem, found⟩
  · exact h.edges x y a b old atX atY
  · have refuted := implied.implied l mem
    rcases ends with ⟨rfl, rfl⟩ | ⟨rfl, rfl⟩
    · rw [Option.some.inj (atX.symm.trans here), Option.some.inj (atY.symm.trans found)]
      exact inconsistent_swap refuted
    · rw [Option.some.inj (atX.symm.trans found), Option.some.inj (atY.symm.trans here)]
      exact refuted

theorem building_drop {assumption : List Int} {conn : Conn} {i : Nat} {lit : Int}
    (h : Building s assumption conn) (wf : Wf s.litToRelax s) (here : assumption[i]? = some lit)
    (unit : UnitSpec s.litToRelax (-lit) s t) (clauses : s.solver.clauses ⊆ t.solver.clauses) :
    Building t (swapRemove assumption i) (conn.clear assumption.length i) ∧
      (swapRemove assumption i).length < assumption.length := by
  obtain ⟨pre, post, shape, perm⟩ := swapRemove_perm here
  have nodup := h.nodup
  rw [shape] at nodup
  have sub : (pre ++ post).Sublist (pre ++ lit :: post) :=
    List.Sublist.append_left (List.sublist_cons_self lit post) pre
  refine ⟨⟨perm.symm.nodup (sub.nodup nodup), ?_, clear_symm h.symm _ _, ?_⟩, ?_⟩
  · intro l mem
    have old : l ∈ assumption := by rw [shape]; exact sub.subset (perm.subset mem)
    have soft := h.soft l old
    have softLit := h.soft lit (List.mem_of_getElem? here)
    have ne : l ≠ lit := by
      rintro rfl
      have := (List.nodup_middle.mp nodup)
      exact (List.nodup_cons.mp this).1 (perm.subset mem)
    have opposite := wf.weight_neg lit
    rw [unit.kept l _ (by omega)]
    · exact soft
    · intro same
      have : l = -lit := by omega
      subst this
      omega
  · intro x y a b edge atX atY
    have inside : ∀ {z : Nat} {c : Int}, (swapRemove assumption i)[z]? = some c →
        z < assumption.length := by
      intro z c found
      have := (List.getElem?_eq_some_iff.mp found).1
      rw [perm.length_eq] at this
      rw [shape]
      simp only [List.length_append, List.length_cons] at this ⊢
      omega
    obtain ⟨old, neX, neY⟩ := (clear_iff (inside atX) (inside atY)).mp edge
    exact inconsistent_mono clauses
      (h.edges x y a b old (swapRemove_get atX neX) (swapRemove_get atY neY))
  · rw [perm.length_eq, shape]
    simp

theorem wp_buildGraph {assumption : List Int} (sound : env.Sound) (sane : Sane s)
    (nodup : assumption.Nodup) (soft : ∀ l ∈ assumption, 0 < s.weight l) :
    Wp (StepOk lo) (buildGraph env assumption)
      (fun r t => Passed s t ∧ Building t r.1 r.2) s := by
  refine wp_loop Nat.lt_wfRel.wf (fun b _ => b.2.1.length - b.1)
    (fun b t => Passed s t ∧ Building t b.2.1 b.2.2) ?_ _ _
    ⟨passed_of_asked sane (asked_refl s), nodup, soft, fun _ _ => rfl, by simp⟩
  rintro ⟨i, assumption, conn⟩ t ⟨passed, building⟩
  replace building : Building t assumption conn := building
  have saneT := passed.sane
  simp only
  cases here : assumption[i]? with
  | none => exact wp_pure ⟨passed, building⟩
  | some lit =>
    have inside := (List.getElem?_eq_some_iff.mp here).1
    have softLit := building.soft lit (List.mem_of_getElem? here)
    simp only
    apply wp_bind
    apply wp_solverPropagate sound saneT
    · intro core prop implied
      have asked := asked_answered t core t.solver.last
      have linked := building_link building here implied
      apply wp_pure
      refine ⟨⟨passed_trans passed (passed_of_asked saneT asked), linked.nodup, linked.soft,
        linked.symm, linked.edges⟩, ?_⟩
      change assumption.length - (i + 1) < assumption.length - i
      omega
    · intro core refuted
      have asked := asked_answered t core t.solver.last
      have saneA := asked_sane asked saneT
      apply wp_bind
      apply wp_refuted saneA refuted softLit
      intro v unit step _
      apply wp_pure
      obtain ⟨dropped, shorter⟩ := building_drop (s := t.answered core t.solver.last)
        ⟨building.nodup, building.soft, building.symm, building.edges⟩ saneA.wf here unit
        step.clauses
      refine ⟨⟨passed_trans passed (passed_trans (passed_of_asked saneT asked) step), dropped⟩, ?_⟩
      change (swapRemove assumption i).length - i < assumption.length - i
      omega

end Build

section Place
variable {g : Slots}

theorem graph_release {q : Nat} (graph : Graph s g) : Graph s (g.release q) where
  symm := clear_symm graph.symm _ _
  edges := by
    intro i j a b edge atI atJ
    obtain ⟨old, neI, neJ⟩ := (clear_iff (List.getElem?_eq_some_iff.mp atI).1
      (List.getElem?_eq_some_iff.mp atJ).1).mp edge
    obtain ⟨actI, actJ, rest⟩ := graph.edges i j a b old atI atJ
    exact ⟨by simp only [Slots.release, if_neg neI, actI],
      by simp only [Slots.release, if_neg neJ, actJ], rest⟩
  distinct := by
    intro i j a actI actJ
    simp only [Slots.release] at actI actJ
    split at actI
    · simp at actI
    · split at actJ
      · simp at actJ
      · exact graph.distinct i j a actI actJ
  alive := by
    intro i a act
    simp only [Slots.release] at act
    split at act
    · simp at act
    · exact graph.alive i a act
  inside := graph.inside

theorem graph_releaseAll (qs : List Nat) (graph : Graph s g) :
    Graph s (qs.foldl Slots.release g) ∧
      (qs.foldl Slots.release g).assumption = g.assumption ∧
      ∀ i, (qs.foldl Slots.release g).active i = true ↔ g.active i = true ∧ i ∉ qs := by
  induction qs generalizing g with
  | nil => exact ⟨graph, rfl, by simp⟩
  | cons q qs ih =>
    obtain ⟨graph', same, active⟩ := ih (graph_release (q := q) graph)
    refine ⟨graph', same, ?_⟩
    intro i
    rw [List.foldl_cons, active i]
    by_cases here : i = q
    · simp [Slots.release, here]
    · simp [Slots.release, here]

/-- A literal can go to slot `q`: it is soft, the slot is free and no other slot has it. -/
structure Placeable (s : EvalMaxSAT K) (g : Slots) (q : Nat) (lit : Int) : Prop where
  bound : q < g.assumption.length
  free : g.active q = false
  soft : 0 < s.weight lit
  new : ∀ i, g.active i = true → g.assumption[i]? ≠ some lit

def EvalMaxSAT.Slots.put (g : Slots) (q : Nat) (lit : Int) : Slots :=
  { g with
    assumption := g.assumption.set q lit
    active := fun k => if k = q then true else g.active k }

theorem put_get {q i : Nat} {lit a : Int} (bound : q < g.assumption.length)
    (found : (g.put q lit).assumption[i]? = some a) :
    (i = q ∧ a = lit) ∨ (i ≠ q ∧ g.assumption[i]? = some a) := by
  simp only [Slots.put] at found
  by_cases here : i = q
  · subst here
    rw [List.getElem?_set_self bound] at found
    exact Or.inl ⟨rfl, (Option.some.inj found).symm⟩
  · rw [List.getElem?_set_ne (Ne.symm here)] at found
    exact Or.inr ⟨here, found⟩

theorem put_active {q i : Nat} {lit : Int} (act : (g.put q lit).active i = true) (ne : i ≠ q) :
    g.active i = true := by
  simpa only [Slots.put, if_neg ne] using act

theorem graph_put {q : Nat} {lit : Int} (graph : Graph s g) (wf : Wf s.litToRelax s)
    (place : Placeable s g q lit) (vars : s.solver.nVar ≤ t.solver.nVar)
    (clauses : s.solver.clauses ⊆ t.solver.clauses)
    (kept : ∀ a, a ≠ lit → a ≠ -lit → 0 < s.weight a → t.weight a = s.weight a)
    (alive : 0 < t.weight lit ∨ [-lit] ∈ t.solver.clauses) : Graph t (g.put q lit) := by
  have others : ∀ i a, g.active i = true → g.assumption[i]? = some a → 0 < s.weight a →
      t.weight a = s.weight a := by
    intro i a act at_i soft
    apply kept a _ _ soft
    · rintro rfl; exact place.new i act at_i
    · rintro rfl
      have := wf.weight_neg lit
      have := place.soft
      omega
  have graph' := graph_kept graph vars clauses others
  refine ⟨graph.symm, ?_, ?_, ?_, ?_⟩
  · intro i j a b edge atI atJ
    have old : ∀ {x y : Nat} {c d : Int}, g.conn x y = true → (g.put q lit).assumption[x]? = some c →
        (g.put q lit).assumption[y]? = some d → x ≠ q := by
      rintro x y c d joined atX atY rfl
      obtain ⟨c', atX'⟩ : ∃ c', g.assumption[x]? = some c' :=
        ⟨_, List.getElem?_eq_getElem place.bound⟩
      have inY : y < g.assumption.length := by
        have := (List.getElem?_eq_some_iff.mp atY).1
        simpa [Slots.put] using this
      have := (graph.edges x y c' _ joined atX' (List.getElem?_eq_getElem inY)).1
      rw [place.free] at this
      simp at this
    have neI := old edge atI atJ
    have neJ := old (by rw [graph.symm]; exact edge) atJ atI
    rcases put_get place.bound atI with ⟨here, _⟩ | ⟨_, atI⟩
    · exact absurd here neI
    · rcases put_get place.bound atJ with ⟨here, _⟩ | ⟨_, atJ⟩
      · exact absurd here neJ
      · obtain ⟨actI, actJ, rest⟩ := graph'.edges i j a b edge atI atJ
        exact ⟨by simp only [Slots.put, if_neg neI, actI],
          by simp only [Slots.put, if_neg neJ, actJ], rest⟩
  · intro i j a actI actJ atI atJ
    rcases put_get place.bound atI with ⟨hereI, sameI⟩ | ⟨neI, atI⟩
    · rcases put_get place.bound atJ with ⟨hereJ, _⟩ | ⟨neJ, atJ⟩
      · rw [hereI, hereJ]
      · rw [sameI] at atJ
        exact absurd atJ (place.new j (put_active actJ neJ))
    · rcases put_get place.bound atJ with ⟨hereJ, sameJ⟩ | ⟨neJ, atJ⟩
      · rw [sameJ] at atI
        exact absurd atI (place.new i (put_active actI neI))
      · exact graph.distinct i j a (put_active actI neI) (put_active actJ neJ) atI atJ
  · intro i a act at_i
    rcases put_get place.bound at_i with ⟨_, same⟩ | ⟨ne, at_i⟩
    · rw [same]; exact alive
    · exact graph'.alive i a (put_active act ne) at_i
  · intro l mem
    rcases List.mem_or_eq_of_mem_set mem with old | new
    · exact graph'.inside l old
    · rw [new]
      exact (wf.weighted_inside (by have := place.soft; omega : s.weight lit ≠ 0)).2.trans vars

theorem graph_link {q : Nat} {lit : Int} {prop : List Int} (graph : Graph s g)
    (here : g.assumption[q]? = some lit) (act : g.active q = true) (soft : 0 < s.weight lit)
    (implied : Implied s.solver.clauses [lit] prop) :
    Graph s { g with conn := g.conn.linkAll g.assumption g.active q prop } := by
  obtain ⟨symm, edges⟩ := linkAll_spec (a := g.assumption) (f := g.active) (i := q)
    prop graph.symm
  refine ⟨symm, ?_, graph.distinct, graph.alive, graph.inside⟩
  intro x y a b edge atX atY
  rcases edges x y edge with old | ⟨k, admitted, ends, l, mem, found⟩
  · exact graph.edges x y a b old atX atY
  · have refuted := implied.implied l mem
    obtain ⟨_, _, _, notFixed, _⟩ := implied.newly l mem
    have softK : 0 < s.weight (-l) := by
      rcases graph.alive k (-l) admitted found with soft | fixed
      · exact soft
      · rw [neg_neg] at fixed; exact absurd fixed notFixed
    rcases ends with ⟨rfl, rfl⟩ | ⟨rfl, rfl⟩
    · rw [Option.some.inj (atX.symm.trans here), Option.some.inj (atY.symm.trans found)]
      exact ⟨act, admitted, soft, softK, inconsistent_swap refuted⟩
    · rw [Option.some.inj (atX.symm.trans found), Option.some.inj (atY.symm.trans here)]
      exact ⟨admitted, act, softK, soft, refuted⟩

theorem wp_placeNewAssum {q : Nat} {lit : Int} (sound : env.Sound) (sane : Sane s)
    (graph : Graph s g) (place : Placeable s g q lit) :
    Wp (StepOk lo) (placeNewAssum env g q lit) (fun g' t => Passed s t ∧ Graph t g' ∧
      (∀ a, a ≠ lit → a ≠ -lit → 0 < s.weight a → t.weight a = s.weight a) ∧
      g'.assumption = (g.put q lit).assumption ∧ g'.active = (g.put q lit).active) s := by
  have bound := place.bound
  apply wp_bind
  apply wp_solverPropagate sound sane
  · intro core prop implied
    have asked := asked_answered s core s.solver.last
    have put := graph_put (t := s.answered core s.solver.last) graph sane.wf place (Nat.le_refl _)
      (List.Subset.refl _) (fun _ _ _ _ => rfl) (Or.inl place.soft)
    have linked := graph_link put (List.getElem?_set_self bound) (by simp [Slots.put]) place.soft
      implied
    exact wp_pure ⟨passed_of_asked sane asked, linked, fun _ _ _ _ => rfl, rfl, rfl⟩
  · intro core refuted
    have asked := asked_answered s core s.solver.last
    apply wp_bind
    apply wp_refuted (asked_sane asked sane) refuted place.soft
    intro t unit passed _
    apply wp_pure
    have all := passed_trans (passed_of_asked sane asked) passed
    have kept : ∀ a, a ≠ lit → a ≠ -lit → 0 < s.weight a → t.weight a = s.weight a := by
      intro a ne neg soft
      exact unit.kept a (by omega) (by change s.weight a ≠ 0; omega)
    exact ⟨all, graph_put graph sane.wf place all.vars all.clauses kept (Or.inr unit.fixed), kept,
      rfl, rfl⟩

end Place

section Exact
variable {g : Slots}

/-- Slots and literals still to be placed. -/
structure Placing (s : EvalMaxSAT K) (g : Slots) (todo : List (Nat × Int)) : Prop where
  sane : Sane s
  graph : Graph s g
  slots : (todo.map Prod.fst).Nodup
  lits : (todo.map Prod.snd).Nodup
  places : ∀ x ∈ todo, Placeable s g x.1 x.2

theorem wp_placeAll {todo : List (Nat × Int)} (sound : env.Sound) (start : Placing s g todo) :
    Wp (StepOk lo) (.fold (fun g x => placeNewAssum env g x.1 x.2) g todo)
      (fun g' t => Passed s t ∧ Graph t g') s := by
  refine wp_fold (fun xs g t => Passed s t ∧ Placing t g xs) ?_
    (fun g t inv => ⟨inv.1, inv.2.graph⟩) _ _ _
    ⟨passed_of_asked start.sane (asked_refl s), start⟩
  rintro ⟨q, lit⟩ xs g t ⟨passed, inv⟩
  have here := inv.places (q, lit) (by simp)
  apply wp_mono (wp_placeNewAssum sound inv.sane inv.graph here)
  rintro g' u ⟨step, graph, kept, assumption, active⟩
  obtain ⟨apartQ, slots⟩ := List.nodup_cons.mp inv.slots
  obtain ⟨apartL, lits⟩ := List.nodup_cons.mp inv.lits
  refine ⟨passed_trans passed step, step.sane, graph, slots, lits, ?_⟩
  rintro ⟨p, l⟩ mem
  have old := inv.places (p, l) (by simp [mem])
  have neQ : p ≠ q := by rintro rfl; exact apartQ (List.mem_map.mpr ⟨_, mem, rfl⟩)
  have neL : l ≠ lit := by rintro rfl; exact apartL (List.mem_map.mpr ⟨_, mem, rfl⟩)
  refine ⟨?_, ?_, ?_, ?_⟩
  · rw [assumption]; simpa [Slots.put] using old.bound
  · rw [active]; simpa [Slots.put, neQ] using old.free
  · have opposite := inv.sane.wf.weight_neg lit
    have softL : 0 < t.weight l := old.soft
    have softLit : 0 < t.weight lit := here.soft
    change 0 < u.weight l
    rw [kept l neL (show l ≠ -lit by rintro rfl; omega) softL]
    exact softL
  · intro i act found
    rw [active] at act
    rw [assumption] at found
    rcases put_get here.bound found with ⟨_, same⟩ | ⟨ne, found⟩
    · exact neL same
    · exact old.new i (put_active act ne) found

theorem clique_clause {qmax : List Nat} (graph : Graph s g) (several : 2 < qmax.length)
    (nodup : qmax.Nodup) (inside : ∀ i ∈ qmax, i < g.assumption.length)
    (linked : ∀ i ∈ qmax, ∀ j ∈ qmax, i ≠ j → g.conn i j = true) :
    (∀ i ∈ qmax, g.active i = true ∧ g.assumption[i]? = some (g.assumption.getD i 0) ∧
      0 < s.weight (g.assumption.getD i 0)) ∧
    (qmax.map fun q => g.assumption.getD q 0).Nodup ∧
    Exclusive s.solver.clauses (qmax.map fun q => g.assumption.getD q 0) := by
  have at_i : ∀ i ∈ qmax, g.assumption[i]? = some (g.assumption.getD i 0) := by
    intro i mem
    rw [List.getD_eq_getElem?_getD, List.getElem?_eq_getElem (inside i mem)]; rfl
  have other : ∀ i ∈ qmax, ∃ j ∈ qmax, i ≠ j := by
    intro i mem
    by_contra none
    have all : ∀ j ∈ qmax, j = i := by
      intro j memJ
      by_contra ne
      exact none ⟨j, memJ, Ne.symm ne⟩
    rw [List.eq_replicate_of_mem all, List.nodup_replicate] at nodup
    omega
  have soft : ∀ i ∈ qmax, g.active i = true ∧ g.assumption[i]? = some (g.assumption.getD i 0) ∧
      0 < s.weight (g.assumption.getD i 0) := by
    intro i mem
    obtain ⟨j, memJ, ne⟩ := other i mem
    obtain ⟨act, _, softI, _⟩ := graph.edges i j _ _ (linked i mem j memJ ne) (at_i i mem)
      (at_i j memJ)
    exact ⟨act, at_i i mem, softI⟩
  refine ⟨soft, ?_, ?_⟩
  · refine nodup.map_on ?_
    intro i memI j memJ same
    exact graph.distinct i j _ (soft i memI).1 (soft j memJ).1 (at_i i memI)
      (by rw [same]; exact at_i j memJ)
  · intro a memA b memB ne
    obtain ⟨i, memI, rfl⟩ := List.mem_map.mp memA
    obtain ⟨j, memJ, rfl⟩ := List.mem_map.mp memB
    have neIJ : i ≠ j := by rintro rfl; exact ne rfl
    exact (graph.edges i j _ _ (linked i memI j memJ neIJ) (at_i i memI) (at_i j memJ)).2.2.2.2

theorem zip_nodup {α β : Type} {xs : List α} {ys : List β} (left : xs.Nodup) (right : ys.Nodup) :
    ((xs.zip ys).map Prod.fst).Nodup ∧ ((xs.zip ys).map Prod.snd).Nodup := by
  rw [List.zip_eq_zip_take_min]
  rw [List.map_fst_zip (by simp), List.map_snd_zip (by simp)]
  exact ⟨left.sublist (List.take_sublist _ _), right.sublist (List.take_sublist _ _)⟩

theorem placing_of_processed {qmax : List Nat} {newAssum : List Int} (wf : Wf s.litToRelax s)
    (graph : Graph s g) (nodup : qmax.Nodup) (inside : ∀ i ∈ qmax, i < g.assumption.length)
    (slots : ∀ i ∈ qmax, g.active i = true ∧ g.assumption[i]? = some (g.assumption.getD i 0) ∧
      0 < s.weight (g.assumption.getD i 0))
    (processed : Processed (qmax.map fun q => g.assumption.getD q 0) s newAssum t) :
    Placing t (qmax.foldl Slots.release g) (qmax.zip newAssum) := by
  obtain ⟨released, same, active⟩ := graph_releaseAll qmax graph
  obtain ⟨slotsNodup, litsNodup⟩ := zip_nodup nodup processed.nodup
  have notClique : ∀ i a, (qmax.foldl Slots.release g).active i = true →
      g.assumption[i]? = some a → a ∉ qmax.map fun q => g.assumption.getD q 0 := by
    intro i a act at_i mem
    obtain ⟨q, memQ, rfl⟩ := List.mem_map.mp mem
    obtain ⟨actG, notIn⟩ := (active i).mp act
    obtain ⟨actQ, at_q, _⟩ := slots q memQ
    exact notIn (by rw [graph.distinct i q _ actG actQ at_i at_q]; exact memQ)
  refine ⟨processed.passed.sane, graph_kept released processed.passed.vars
    processed.passed.clauses ?_, slotsNodup, litsNodup, ?_⟩
  · intro i a act at_i soft
    rw [same] at at_i
    apply processed.kept a (notClique i a act at_i) _ (by omega)
    intro mem
    obtain ⟨q, memQ, eq⟩ := List.mem_map.mp mem
    have := (slots q memQ).2.2
    have := wf.weight_neg a
    rw [eq] at *
    omega
  · rintro ⟨q, lit⟩ mem
    obtain ⟨memQ, memL⟩ := List.of_mem_zip mem
    refine ⟨by rw [same]; exact inside q memQ, ?_, processed.soft lit memL, ?_⟩
    · cases act : (qmax.foldl Slots.release g).active q with
      | false => rfl
      | true => exact absurd memQ ((active q).mp act).2
    · intro i act at_i
      rw [same] at at_i
      rcases processed.origin lit memL with old | new
      · exact notClique i lit act at_i old
      · have := graph.inside lit (List.mem_of_getElem? at_i)
        omega

theorem wp_adapt_am1_exact (sound : env.Sound) (sane : Sane s) (start : s.startSolve = true) :
    Wp (StepOk lo) (adapt_am1_exact env) (fun _ t => Passed s t) s := by
  have here := passed_of_asked sane (asked_refl s)
  apply wp_bind_read
  refine wp_ite (fun _ => wp_pure here) (fun _ => ?_)
  obtain ⟨nodup, soft⟩ := allSoft_spec sane.wf
  apply wp_bind
  apply wp_mono (wp_buildGraph sound sane nodup soft)
  rintro ⟨assumption, conn⟩ t ⟨passed, building⟩
  refine wp_ite (fun _ => wp_pure passed) (fun _ => ?_)
  refine wp_loop Nat.lt_wfRel.wf (fun _ u => u.potential)
    (fun g u => Passed s u ∧ Graph u g) ?_ _ _ ⟨passed, graph_of_building passed.sane.wf building⟩
  rintro g u ⟨passed, graph⟩
  apply wp_bind
  apply wp_withCore (free_stepOk passed.sane)
  intro core
  have asked := asked_answered u core u.solver.last
  obtain ⟨nodup, inside, linked⟩ := sound.clique u.solver.core g.conn g.assumption.length
    graph.symm
  generalize (env.maxclique u.solver.core g.conn g.assumption.length).1 = qmax at *
  have toHere := passed_trans passed (passed_of_asked passed.sane asked)
  refine wp_ite (fun _ => wp_pure toHere) (fun several => ?_)
  have graphA : Graph (u.answered core u.solver.last) g :=
    graph_kept graph (Nat.le_refl _) (List.Subset.refl _) (fun _ _ _ _ _ => rfl)
  obtain ⟨slots, clauseNodup, exclusive⟩ := clique_clause graphA (by omega) nodup inside linked
  apply wp_bind
  apply wp_mono (wp_processAtMostOne toHere.sane ((passed_start toHere).trans start) clauseNodup
    ?_ exclusive)
  · rintro newAssum v ⟨processed, paid⟩
    have placing := placing_of_processed toHere.sane.wf graphA nodup inside slots processed
    apply wp_bind
    apply wp_mono (wp_placeAll sound placing)
    rintro g' x ⟨step, graph'⟩
    apply wp_pure
    refine ⟨⟨passed_trans toHere (passed_trans processed.passed step), graph'⟩, ?_⟩
    have less := paid (by rw [List.length_map]; omega)
    have := step.potential
    change v.potential < u.potential at less
    change x.potential < u.potential
    omega
  · intro l mem
    obtain ⟨q, memQ, rfl⟩ := List.mem_map.mp mem
    exact (slots q memQ).2.2

end Exact
end EvalMaxSat
