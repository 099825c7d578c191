import EvalMaxSat.TotalizerMeaning

/-!
`CardIncremental_Lazy` through its root: which outputs exist, what a call of `atMost`
adds, and what the literal it returns means.
-/
namespace EvalMaxSat
open Literals LawfulSink

namespace TotTree

/-- The variable of output `i` of the root, once it is made. -/
def output (t : TotTree) (i : Nat) : Option Int := (t.lazyVars[i]?).bind LazyVariable.var

theorem join_allOutputs {P : List Int → Nat → Int → Prop} {rhs : Nat} {l r : TotTree}
    (hl : l.AllOutputs P) (hr : r.AllOutputs P) : (join rhs l r).AllOutputs P := by
  refine ⟨hl, hr, ?_⟩
  intro i v x found made
  rw [(newUa_spec found).2.1] at made
  simp at made

theorem joinAll_allOutputs {P : List Int → Nat → Int → Prop} {rhs : Nat} (fuel : Nat)
    (ts : List TotTree) (all : ∀ t ∈ ts, t.AllOutputs P) : (joinAll rhs fuel ts).AllOutputs P := by
  induction fuel generalizing ts with
  | zero =>
    match ts with
    | [] => trivial
    | t :: _ => exact all t (by simp)
  | succ fuel ih =>
    match ts with
    | [] => trivial
    | [t] => exact all t (by simp)
    | l :: r :: rest =>
      apply ih
      intro t mem
      rcases List.mem_append.mp mem with mem | mem
      · exact all t (by simp [mem])
      · simp at mem; subst mem
        exact join_allOutputs (all l (by simp)) (all r (by simp))

theorem buildTo_allOutputs (P : List Int → Nat → Int → Prop) (rhs : Nat) (clause : Clause) :
    (buildTo rhs clause).AllOutputs P := by
  apply joinAll_allOutputs
  intro t mem
  obtain ⟨l, _, eq⟩ := List.mem_map.mp mem
  subst eq; trivial

theorem build_output {clause : Clause} {b : Nat} (several : 2 ≤ (build clause b).getClause.length)
    (i : Nat) : (build clause b).output i = none := by
  have blank : (build clause b).AllOutputs fun _ _ _ => False := buildTo_allOutputs _ _ clause
  cases tree : build clause b with
  | leaf v => rw [tree] at several; simp [getClause] at several
  | node n vs l r =>
    rw [tree] at blank
    simp only [output, lazyVars]
    cases found : vs[i]? with
    | none => rfl
    | some v =>
      cases made : v.var with
      | none => simp [made]
      | some x => exact (blank.2.2 i v x found made).elim

theorem increaseUa_output {vs : List LazyVariable} {aSize bSize rhs i : Nat} {v : LazyVariable}
    {x : Int} (found : (increaseUa vs aSize bSize rhs)[i]? = some v) (made : v.var = some x) :
    vs[i]? = some v := by
  by_cases old : i < vs.length
  · rwa [increaseUa_old old] at found
  · rw [(increaseUa_new (Nat.le_of_not_lt old) found).2.1] at made
    simp at made

theorem increaseTo_allOutputs {P : List Int → Nat → Int → Prop} {rhs : Nat} {t : TotTree}
    (all : t.AllOutputs P) : (t.increaseTo rhs).AllOutputs P := by
  induction t with
  | leaf v => trivial
  | node n vs l r hl hr =>
    simp only [increaseTo]
    split
    · exact all
    · refine ⟨hl all.1, hr all.2.1, ?_⟩
      intro i v x found made
      rw [increaseTo_getClause, increaseTo_getClause]
      exact all.2.2 i v x (increaseUa_output found made) made

theorem increaseTo_output (rhs : Nat) (t : TotTree) (i : Nat) :
    (t.increaseTo rhs).output i = t.output i := by
  cases t with
  | leaf v => rfl
  | node n vs l r =>
    simp only [increaseTo]
    split
    · rfl
    · change ((increaseUa vs (l.increaseTo rhs).lazyVars.length
        (r.increaseTo rhs).lazyVars.length (min rhs n))[i]?).bind LazyVariable.var =
          (vs[i]?).bind LazyVariable.var
      by_cases old : i < vs.length
      · rw [increaseUa_old old]
      · rw [List.getElem?_eq_none (Nat.le_of_not_lt old), Option.bind_none,
          Option.bind_eq_none_iff]
        intro v found
        exact (increaseUa_new (Nat.le_of_not_lt old) found).2.1

variable {τ : Type} [ClauseSink τ] [LawfulSink τ]

theorem increaseTo_ready {rhs : Nat} {t : TotTree} {s : τ} (ready : t.Ready s) :
    (t.increaseTo rhs).Ready s where
  wellFormed := increaseTo_wellFormed ready.wellFormed
  varsUpTo := ⟨by rw [increaseTo_getClause]; exact ready.varsUpTo.1,
    increaseTo_allOutputs ready.varsUpTo.2⟩
  sound := fun m models => increaseTo_allOutputs (ready.sound m models)

theorem buildTo_ready {clause : Clause} {a : Nat} {s : τ} (nonempty : clause ≠ [])
    (within : Within (vars s) clause) :
    (buildTo a clause).Ready s ∧ (buildTo a clause).getClause.Perm clause := by
  obtain ⟨built, perm⟩ := buildTo_spec (r := a) nonempty (fun l mem => (within l mem).1)
  exact ⟨⟨built.1, ⟨fun l mem => within l (perm.subset mem), buildTo_allOutputs _ a clause⟩,
    fun m _ => buildTo_allOutputs _ a clause⟩, perm⟩

theorem output_bound {t : TotTree} {s : τ} (ready : t.Ready s)
    (several : 2 ≤ t.getClause.length) {i : Nat} {x : Int} (made : t.output i = some x) :
    0 < x ∧ x.natAbs ≤ vars s := by
  cases t with
  | leaf v => simp [getClause] at several
  | node n vs l r =>
    obtain ⟨v, found, at_v⟩ := Option.bind_eq_some_iff.mp made
    exact ready.varsUpTo.2.2.2 i v x found at_v

theorem output_upward {t : TotTree} {s : τ} (ready : t.Ready s)
    (several : 2 ≤ t.getClause.length) {i : Nat} {x : Int} (made : t.output i = some x)
    {m : Assignment} (models : Models m (clauses s)) (enough : i + 1 ≤ trueCount m t.getClause) :
    litTrue m x = true := by
  cases t with
  | leaf v => simp [getClause] at several
  | node n vs l r =>
    obtain ⟨v, found, at_v⟩ := Option.bind_eq_some_iff.mp made
    exact (ready.sound m models).2.2 i v x found at_v enough

theorem get_outputs {t : TotTree} {i : Nat} {s : τ} (wf : t.WellFormed)
    (several : 2 ≤ t.getClause.length) (lt : i < t.lazyVars.length) :
    (t.get i s).2.1.output i = some (t.get i s).1 ∧
      (∀ j, j ≠ i → (t.get i s).2.1.output j = t.output j) ∧
      ((t.output i = some (t.get i s).1 ∧ (t.get i s).2 = (t, s)) ∨
        (t.output i = none ∧ (t.get i s).1 = ((vars s + 1 : Nat) : Int))) := by
  cases t with
  | leaf v => simp [getClause] at several
  | node n vs l r =>
    replace lt : i < vs.length := lt
    have found : vs[i]? = some vs[i] := List.getElem?_eq_getElem lt
    have shape : (TotTree.node n vs l r).height = max l.height r.height + 1 := rfl
    rw [get, shape]
    cases made : vs[i].var with
    | some x =>
      rw [getAt_made found made]
      have here : (TotTree.node n vs l r).output i = some x := by
        simp only [output, lazyVars, found, Option.bind_some, made]
      exact ⟨here, fun _ _ => rfl, Or.inl ⟨here, rfl⟩⟩
    | none =>
      rw [getAt_new found made (impliquants_not_single wf found)]
      refine ⟨?_, ?_, Or.inr ⟨?_, newVar_var s⟩⟩
      · simp only [output, lazyVars, List.getElem?_set_self lt, Option.bind_some]
      · intro j ne
        simp only [output, lazyVars, List.getElem?_set_ne (Ne.symm ne)]
      · simp only [output, lazyVars, found, Option.bind_some, made]

end TotTree

namespace CardIncremental_Lazy
variable {τ : Type} [ClauseSink τ] [LawfulSink τ]

def inputs (c : CardIncremental_Lazy) : List Int := c.tree.getClause

def output (c : CardIncremental_Lazy) (i : Nat) : Option Int := c.tree.output i

structure Ready (c : CardIncremental_Lazy) (s : τ) : Prop where
  tree : c.tree.Ready s
  maxVars : c.maxVars = c.inputs.length
  several : 2 ≤ c.inputs.length

theorem ready_later {c : CardIncremental_Lazy} {s u : τ} (ready : c.Ready s)
    (le : vars s ≤ vars u) (sub : clauses s ⊆ clauses u) : c.Ready u :=
  ⟨TotTree.ready_later ready.tree le sub, ready.maxVars, ready.several⟩

omit [LawfulSink τ] in
theorem atMost_none {c : CardIncremental_Lazy} {k : Nat} {s : τ} (le : c.maxVars ≤ k) :
    c.atMost k s = (0, c, s) := by
  simp [atMost, le]

/-- What `atMost k` does where `k` bounds something: `v` is the variable that is true when
more than `k` inputs are. -/
structure AtMostSpec (c : CardIncremental_Lazy) (k : Nat) (s : τ) (v : Nat)
    (c' : CardIncremental_Lazy) (s' : τ) : Prop where
  positive : 0 < v
  bound : v ≤ vars s'
  ready : c'.Ready s'
  within : ClausesWithin s'
  inputs : c'.inputs = c.inputs
  made : c'.output k = some (v : Int)
  others : ∀ j, j ≠ k → c'.output j = c.output j
  origin : c.output k = some (v : Int) ∨ (c.output k = none ∧ v = vars s + 1)
  upward : ∀ m, Models m (clauses s') → k + 1 ≤ trueCount m c.inputs → m v = true
  extend : Extends s s' (c.tree.Exact ·)
    (fun m => c'.tree.Exact m ∧ m v = decide (k + 1 ≤ trueCount m c.inputs))

/-- The tree that `atMost k` reads its literal from. -/
def grown (c : CardIncremental_Lazy) (k : Nat) : TotTree :=
  if c.tree.lazyVars.length ≤ k then c.tree.increaseTo (k + 1) else c.tree

omit [LawfulSink τ] in
theorem atMost_some {c : CardIncremental_Lazy} {k : Nat} {s : τ} (lt : k < c.maxVars) :
    c.atMost k s = (-((c.grown k).get k s).1, { c with tree := ((c.grown k).get k s).2.1 },
      ((c.grown k).get k s).2.2) := by
  simp only [atMost, if_neg (Nat.not_le.mpr lt), grown]

structure Grown (c : CardIncremental_Lazy) (k : Nat) (s : τ) (tree : TotTree) : Prop where
  ready : tree.Ready s
  inputs : tree.getClause = c.tree.getClause
  outputs : ∀ j, tree.output j = c.tree.output j
  exacts : ∀ m, c.tree.Exact m → tree.Exact m
  long : k < tree.lazyVars.length

theorem grown_spec {c : CardIncremental_Lazy} {k : Nat} {s : τ} (ready : c.tree.Ready s)
    (lt : k < c.tree.getClause.length) : Grown c k s (c.grown k) := by
  simp only [grown]
  split
  · refine ⟨TotTree.increaseTo_ready ready, TotTree.increaseTo_getClause (k + 1) _,
      TotTree.increaseTo_output (k + 1) _, fun m => TotTree.increaseTo_allOutputs, ?_⟩
    rw [TotTree.increaseTo_lazyVars ready.wellFormed]; omega
  · rename_i enough
    exact ⟨ready, rfl, fun _ => rfl, fun _ h => h, by omega⟩

theorem atMost_spec {c : CardIncremental_Lazy} {k : Nat} {s : τ} (ready : c.Ready s)
    (within : ClausesWithin s) (lt : k < c.maxVars) :
    ∃ v : Nat, (c.atMost k s).1 = -(v : Int) ∧
      AtMostSpec c k s v (c.atMost k s).2.1 (c.atMost k s).2.2 := by
  have bounded : k < c.tree.getClause.length := by
    have := ready.maxVars; simp only [inputs] at this; omega
  obtain ⟨treeReady, inputs, outputs, exacts, long⟩ := grown_spec ready.tree bounded
  have several : 2 ≤ (c.grown k).getClause.length := by rw [inputs]; exact ready.several
  have spec := TotTree.get_spec treeReady within long
  have outs := TotTree.get_outputs (s := s) treeReady.wellFormed several long
  rw [atMost_some lt]
  generalize (c.grown k).get k s = out at spec outs
  obtain ⟨x, tree', s'⟩ := out
  simp only at spec outs ⊢
  have several' : 2 ≤ tree'.getClause.length := by rw [spec.keeps.inputs]; exact several
  obtain ⟨pos, bound⟩ := TotTree.output_bound spec.ready several' outs.1
  have cast : ((x.natAbs : Nat) : Int) = x := by omega
  have value : ∀ m : Assignment, m x.natAbs = litTrue m x := by
    intro m
    rw [← litTrue_natCast (m := m) (by omega : 0 < x.natAbs), cast]
  refine ⟨x.natAbs, by rw [cast], ⟨by omega, bound, ⟨spec.ready, ?_, several'⟩, spec.within, ?_, ?_, ?_,
    ?_, ?_, ?_⟩⟩
  · simp only [CardIncremental_Lazy.inputs, spec.keeps.inputs, inputs]; exact ready.maxVars
  · simp only [CardIncremental_Lazy.inputs, spec.keeps.inputs, inputs]
  · rw [cast]; exact outs.1
  · intro j ne
    exact (outs.2.1 j ne).trans (outputs j)
  · rw [cast]
    rcases outs.2.2 with ⟨old, _⟩ | ⟨unmade, fresh⟩
    · exact Or.inl ((outputs k).symm.trans old)
    · exact Or.inr ⟨(outputs k).symm.trans unmade, by omega⟩
  · intro m models enough
    rw [value m]
    exact spec.upward m models (by rw [inputs]; exact enough)
  · refine extends_mono spec.extend exacts ?_
    rintro m ⟨exact_m, counts⟩
    refine ⟨exact_m, ?_⟩
    rw [value m, counts, inputs]
    rfl

theorem mk'_spec {clause : Clause} {s : τ} (several : 2 ≤ clause.length)
    (within : Within (vars s) clause) :
    (mk' clause 1).Ready s ∧ (mk' clause 1).inputs.Perm clause ∧
      (∀ i, (mk' clause 1).output i = none) ∧ ∀ m, (mk' clause 1).tree.Exact m := by
  have nonempty : clause ≠ [] := by rintro rfl; simp at several
  obtain ⟨ready, perm⟩ := TotTree.buildTo_ready (a := u32 (1 + 1)) nonempty within
  have length := perm.length_eq
  refine ⟨⟨ready, length.symm, ?_⟩, perm, ?_, fun m => TotTree.buildTo_allOutputs _ _ clause⟩
  · change 2 ≤ (TotTree.buildTo (u32 (1 + 1)) clause).getClause.length
    omega
  · exact TotTree.build_output (b := 1) (by rw [TotTree.build]; omega)

end CardIncremental_Lazy
end EvalMaxSat
