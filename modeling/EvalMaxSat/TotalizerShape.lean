import EvalMaxSat.Totalizer

/-!
What the totalizer tree looks like however it was built: every output of a node has
exactly the implicants that its index calls for, wherever a bound truncated the tree.
-/
namespace EvalMaxSat
open Literals

/-- The implicants of output `i` of a node over `a` and `b` inputs. -/
def Implicant (a b i : Nat) (imp : List Child) : Prop :=
  (i < b ∧ imp = [(Side.right, i)]) ∨ (i < a ∧ imp = [(Side.left, i)]) ∨
    ∃ x y, x < a ∧ y < b ∧ x + y + 1 = i ∧ imp = [(Side.left, x), (Side.right, y)]

namespace TotTree

def WellFormed : TotTree → Prop
  | .leaf v => v.impliquants = [] ∧ ∃ l, v.var = some l ∧ l ≠ 0
  | .node n vs l r => l.WellFormed ∧ r.WellFormed ∧
      n = l.getClause.length + r.getClause.length ∧ vs.length ≤ n ∧
      min vs.length l.getClause.length ≤ l.lazyVars.length ∧
      min vs.length r.getClause.length ≤ r.lazyVars.length ∧
      ∀ i v, vs[i]? = some v →
        ∀ imp, imp ∈ v.impliquants ↔ Implicant l.getClause.length r.getClause.length i imp

theorem nofInput_eq {t : TotTree} (wf : t.WellFormed) : t.nofInput = t.getClause.length := by
  cases t with
  | leaf v => rfl
  | node n vs l r => simp only [WellFormed] at wf; simp [nofInput, getClause, wf.2.2.1]

theorem lazyVars_le {t : TotTree} (wf : t.WellFormed) :
    t.lazyVars.length ≤ t.getClause.length := by
  cases t with
  | leaf v => simp [lazyVars, getClause]
  | node n vs l r =>
    simp only [WellFormed] at wf
    simp only [lazyVars, getClause, List.length_append]
    omega

end TotTree

theorem addImpliquants_getElem? (vs : List LazyVariable) (calls : List (Nat × List Child))
    (i : Nat) : (addImpliquants vs calls)[i]? = vs[i]?.map (fun v =>
      { v with impliquants :=
          v.impliquants ++ (calls.filter (fun c => c.1 = i)).map Prod.snd }) := by
  unfold addImpliquants
  induction calls generalizing vs with
  | nil => simp
  | cons c cs ih =>
    rw [List.foldl_cons, ih, List.getElem?_modify]
    by_cases same : c.1 = i
    · cases vs[i]? <;> simp [same, LazyVariable.addImpliquant]
    · cases vs[i]? <;> simp [same]

theorem addImpliquants_length (vs : List LazyVariable) (calls : List (Nat × List Child)) :
    (addImpliquants vs calls).length = vs.length := by
  unfold addImpliquants
  induction calls generalizing vs with
  | nil => rfl
  | cons c cs ih => rw [List.foldl_cons, ih, List.length_modify]

theorem mem_added {calls : List (Nat × List Child)} {i : Nat} {imp : List Child} :
    imp ∈ (calls.filter (fun c => c.1 = i)).map Prod.snd ↔ (i, imp) ∈ calls := by
  simp only [List.mem_map, List.mem_filter, decide_eq_true_eq]
  constructor
  · rintro ⟨⟨j, jmp⟩, ⟨mem, same⟩, eq⟩
    subst same; subst eq; exact mem
  · intro mem; exact ⟨(i, imp), ⟨mem, rfl⟩, rfl⟩

theorem mem_newUaCalls {rhs a b i : Nat} {imp : List Child} :
    (i, imp) ∈ newUaCalls rhs a b ↔
      (i < min rhs b ∧ imp = [(Side.right, i)]) ∨ (i < min rhs a ∧ imp = [(Side.left, i)]) ∨
        ∃ x y, x < min rhs a ∧ y < min (rhs - (x + 1)) b ∧ x + y + 1 = i ∧
          imp = [(Side.left, x), (Side.right, y)] := by
  simp only [newUaCalls, List.mem_append, List.mem_map, List.mem_range, List.mem_flatMap,
    Prod.mk.injEq, or_assoc]
  refine or_congr ?_ (or_congr ?_ ?_)
  · constructor
    · rintro ⟨j, lt, same, eq⟩; subst same; exact ⟨lt, eq.symm⟩
    · rintro ⟨lt, eq⟩; exact ⟨i, lt, rfl, eq.symm⟩
  · constructor
    · rintro ⟨j, lt, same, eq⟩; subst same; exact ⟨lt, eq.symm⟩
    · rintro ⟨lt, eq⟩; exact ⟨i, lt, rfl, eq.symm⟩
  · constructor
    · rintro ⟨x, hx, y, hy, same, eq⟩; exact ⟨x, y, hx, hy, same, eq.symm⟩
    · rintro ⟨x, y, hx, hy, same, eq⟩; exact ⟨x, hx, y, hy, same, eq.symm⟩

theorem mem_increaseUaCalls {last rhs a b i : Nat} {imp : List Child} :
    (i, imp) ∈ increaseUaCalls last rhs a b ↔ last ≤ i ∧ (i, imp) ∈ newUaCalls rhs a b := by
  rw [mem_newUaCalls]
  simp only [increaseUaCalls, List.mem_append, List.mem_map, List.mem_filter, List.mem_range,
    List.mem_flatMap, decide_eq_true_eq, Prod.mk.injEq, or_assoc]
  constructor
  · rintro (⟨j, ⟨lt, le⟩, same, eq⟩ | ⟨j, ⟨lt, le⟩, same, eq⟩ |
      ⟨x, hx, y, ⟨hy, le⟩, same, eq⟩)
    · subst same; exact ⟨le, Or.inl ⟨lt, eq.symm⟩⟩
    · subst same; exact ⟨le, Or.inr (Or.inl ⟨lt, eq.symm⟩)⟩
    · exact ⟨by omega, Or.inr (Or.inr ⟨x, y, hx, hy, same, eq.symm⟩)⟩
  · rintro ⟨le, ⟨lt, eq⟩ | ⟨lt, eq⟩ | ⟨x, y, hx, hy, same, eq⟩⟩
    · exact Or.inl ⟨i, ⟨lt, le⟩, rfl, eq.symm⟩
    · exact Or.inr (Or.inl ⟨i, ⟨lt, le⟩, rfl, eq.symm⟩)
    · exact Or.inr (Or.inr ⟨x, hx, y, ⟨hy, by omega⟩, same, eq.symm⟩)

/-- Where the lists of the children are long enough, the truncated calls are all there are. -/
theorem newUaCalls_implicant {rhs a b aSize bSize i : Nat} {imp : List Child} (lt : i < rhs)
    (la : min rhs a ≤ aSize) (ua : aSize ≤ a) (lb : min rhs b ≤ bSize) (ub : bSize ≤ b) :
    (i, imp) ∈ newUaCalls rhs aSize bSize ↔ Implicant a b i imp := by
  rw [mem_newUaCalls, Implicant]
  refine or_congr ?_ (or_congr ?_ ?_)
  · refine and_congr ?_ Iff.rfl; omega
  · refine and_congr ?_ Iff.rfl; omega
  · constructor
    · rintro ⟨x, y, hx, hy, same, eq⟩; exact ⟨x, y, by omega, by omega, same, eq⟩
    · rintro ⟨x, y, hx, hy, same, eq⟩; exact ⟨x, y, by omega, by omega, same, eq⟩

namespace TotTree

theorem join_lazyVars {rhs : Nat} {l r : TotTree} :
    (join rhs l r).lazyVars.length = min rhs (l.nofInput + r.nofInput) := by
  simp [join, lazyVars, newUa, addImpliquants_length]

theorem getElem?_replicate_eq {n i : Nat} {v : LazyVariable}
    (found : (List.replicate n LazyVariable.fresh)[i]? = some v) :
    i < n ∧ v = LazyVariable.fresh := by
  rw [List.getElem?_replicate] at found
  split at found
  · rename_i lt; exact ⟨lt, (Option.some.inj found).symm⟩
  · simp at found

theorem newUa_spec {rhs aSize bSize i : Nat} {v : LazyVariable}
    (found : (newUa (List.replicate rhs .fresh) rhs aSize bSize)[i]? = some v) :
    i < rhs ∧ v.var = none ∧ ∀ imp, imp ∈ v.impliquants ↔ (i, imp) ∈ newUaCalls rhs aSize bSize := by
  rw [newUa, addImpliquants_getElem?] at found
  obtain ⟨w, at_i, eq⟩ := Option.map_eq_some_iff.mp found
  obtain ⟨lt, fresh⟩ := getElem?_replicate_eq at_i
  subst eq; subst fresh
  refine ⟨lt, rfl, fun imp => ?_⟩
  simp only [LazyVariable.fresh, List.nil_append, mem_added]

theorem join_wellFormed {rhs : Nat} {l r : TotTree} (wl : l.WellFormed) (wr : r.WellFormed)
    (ll : min rhs l.getClause.length ≤ l.lazyVars.length)
    (lr : min rhs r.getClause.length ≤ r.lazyVars.length) : (join rhs l r).WellFormed := by
  have ul := lazyVars_le wl
  have ur := lazyVars_le wr
  simp only [join, WellFormed, nofInput_eq wl, nofInput_eq wr]
  refine ⟨wl, wr, trivial, ?_, ?_, ?_, ?_⟩
  · simp [newUa, addImpliquants_length]
  · simp only [newUa, addImpliquants_length, List.length_replicate]; omega
  · simp only [newUa, addImpliquants_length, List.length_replicate]; omega
  · intro i v found imp
    obtain ⟨lt, _, members⟩ := newUa_spec found
    rw [members]
    exact newUaCalls_implicant lt (by omega) ul (by omega) ur

def Built (rhs : Nat) (t : TotTree) : Prop :=
  t.WellFormed ∧ min rhs t.getClause.length ≤ t.lazyVars.length

theorem join_built {rhs : Nat} {l r : TotTree} (bl : Built rhs l) (br : Built rhs r) :
    Built rhs (join rhs l r) := by
  refine ⟨join_wellFormed bl.1 br.1 bl.2 br.2, ?_⟩
  rw [join_lazyVars, nofInput_eq bl.1, nofInput_eq br.1]
  simp [join, getClause]

theorem joinAll_built {rhs : Nat} (fuel : Nat) (ts : List TotTree) (nonempty : ts ≠ [])
    (enough : ts.length ≤ fuel + 1) (built : ∀ t ∈ ts, Built rhs t) :
    Built rhs (joinAll rhs fuel ts) ∧
      (joinAll rhs fuel ts).getClause.Perm (ts.flatMap getClause) := by
  induction fuel generalizing ts with
  | zero =>
    match ts, nonempty, enough with
    | [t], _, _ => exact ⟨built t (by simp), by simp [joinAll]⟩
  | succ fuel ih =>
    match ts, nonempty with
    | [t], _ => exact ⟨built t (by simp), by simp [joinAll]⟩
    | l :: r :: rest, _ =>
      have joined := join_built (built l (by simp)) (built r (by simp))
      obtain ⟨whole, perm⟩ := ih (rest ++ [join rhs l r]) (by simp)
        (by simp at enough ⊢; omega) (by
          intro t mem
          rcases List.mem_append.mp mem with mem | mem
          · exact built t (by simp [mem])
          · simp at mem; subst mem; exact joined)
      refine ⟨whole, perm.trans ?_⟩
      simp only [List.flatMap_append, List.flatMap_cons, List.flatMap_nil, List.append_nil]
      refine List.perm_append_comm.trans ?_
      simp [join, getClause]

theorem buildTo_spec {clause : Clause} {r : Nat} (nonempty : clause ≠ [])
    (nonzero : ∀ l ∈ clause, l ≠ 0) :
    Built r (buildTo r clause) ∧ (buildTo r clause).getClause.Perm clause := by
  have leaves : ∀ t ∈ clause.map (fun l => TotTree.leaf (.ofInt l)), Built r t := by
    intro t mem
    obtain ⟨l, inClause, eq⟩ := List.mem_map.mp mem
    subst eq
    refine ⟨⟨rfl, l, rfl, nonzero l inClause⟩, ?_⟩
    simp only [lazyVars, getClause, List.length_singleton]; omega
  obtain ⟨built, perm⟩ := joinAll_built clause.length _ (by simpa using nonempty) (by simp) leaves
  refine ⟨built, perm.trans ?_⟩
  have flat : (clause.map (fun l => TotTree.leaf (.ofInt l))).flatMap getClause = clause := by
    induction clause with
    | nil => rfl
    | cons l ls ih =>
      by_cases empty : ls = []
      · subst empty; rfl
      · simp [getClause, LazyVariable.ofInt, List.flatMap_map]
  rw [flat]

theorem increaseTo_getClause (rhs : Nat) (t : TotTree) :
    (t.increaseTo rhs).getClause = t.getClause := by
  induction t with
  | leaf v => rfl
  | node n vs l r hl hr =>
    simp only [increaseTo]
    split
    · rfl
    · simp [getClause, hl, hr]

theorem increaseUa_getElem? {vs : List LazyVariable} {aSize bSize rhs i : Nat} :
    (increaseUa vs aSize bSize rhs)[i]? =
      ((vs ++ List.replicate (rhs - vs.length) .fresh)[i]?).map (fun v =>
        { v with impliquants := v.impliquants ++
            ((increaseUaCalls vs.length rhs aSize bSize).filter (fun c => c.1 = i)).map Prod.snd }) := by
  rw [increaseUa, addImpliquants_getElem?]

theorem increaseUa_old {vs : List LazyVariable} {aSize bSize rhs i : Nat} (lt : i < vs.length) :
    (increaseUa vs aSize bSize rhs)[i]? = vs[i]? := by
  rw [increaseUa_getElem?, List.getElem?_append_left lt]
  have none_added : (increaseUaCalls vs.length rhs aSize bSize).filter (fun c => c.1 = i) = [] := by
    rw [List.filter_eq_nil_iff]
    rintro ⟨j, imp⟩ mem
    have := (mem_increaseUaCalls.mp mem).1
    simp only [decide_eq_true_eq]; omega
  rw [none_added]
  cases vs[i]? <;> simp

theorem increaseUa_new {vs : List LazyVariable} {aSize bSize rhs i : Nat} {v : LazyVariable}
    (old : vs.length ≤ i) (found : (increaseUa vs aSize bSize rhs)[i]? = some v) :
    i < rhs ∧ v.var = none ∧
      ∀ imp, imp ∈ v.impliquants ↔ (i, imp) ∈ newUaCalls rhs aSize bSize := by
  rw [increaseUa_getElem?, List.getElem?_append_right old] at found
  obtain ⟨w, at_i, eq⟩ := Option.map_eq_some_iff.mp found
  obtain ⟨lt, fresh⟩ := getElem?_replicate_eq at_i
  subst eq; subst fresh
  refine ⟨by omega, rfl, fun imp => ?_⟩
  simp only [LazyVariable.fresh, List.nil_append, mem_added]
  rw [mem_increaseUaCalls]
  exact ⟨fun h => h.2, fun h => ⟨old, h⟩⟩

theorem increaseTo_lazyVars {a : Nat} {t : TotTree} (wf : t.WellFormed) :
    (t.increaseTo a).lazyVars.length =
      max t.lazyVars.length (min a t.getClause.length) := by
  cases t with
  | leaf v => simp only [increaseTo, lazyVars, getClause, List.length_singleton]; omega
  | node n vs l r =>
    have total := nofInput_eq wf
    simp only [nofInput] at total
    simp only [increaseTo]
    split
    · simp only [lazyVars]; omega
    · simp only [lazyVars, increaseUa, addImpliquants_length, List.length_append,
        List.length_replicate]
      omega

theorem increaseTo_wellFormed {rhs : Nat} {t : TotTree} (wf : t.WellFormed) :
    (t.increaseTo rhs).WellFormed := by
  induction t with
  | leaf v => exact wf
  | node n vs l r hl hr =>
    obtain ⟨wl, wr, total, short, ll, lr, imps⟩ := wf
    simp only [increaseTo]
    split
    · exact ⟨wl, wr, total, short, ll, lr, imps⟩
    · rename_i grows
      have wl' := hl wl
      have wr' := hr wr
      have sl := increaseTo_lazyVars (a := rhs) wl
      have sr := increaseTo_lazyVars (a := rhs) wr
      have ul := lazyVars_le wl'
      have ur := lazyVars_le wr'
      rw [increaseTo_getClause] at ul ur
      have len : (increaseUa vs (l.increaseTo rhs).lazyVars.length
          (r.increaseTo rhs).lazyVars.length (min rhs n)).length =
          min rhs n := by
        simp only [increaseUa, addImpliquants_length, List.length_append, List.length_replicate]
        omega
      refine ⟨wl', wr', by simp only [increaseTo_getClause]; exact total, ?_, ?_, ?_, ?_⟩
      · rw [len]; omega
      · rw [len, increaseTo_getClause]; omega
      · rw [len, increaseTo_getClause]; omega
      · intro i v found imp
        simp only [increaseTo_getClause]
        by_cases old : i < vs.length
        · rw [increaseUa_old old] at found
          exact imps i v found imp
        · obtain ⟨lt, _, members⟩ := increaseUa_new (Nat.le_of_not_lt old) found
          rw [members]
          exact newUaCalls_implicant lt (by omega) ul (by omega) ur

end TotTree
end EvalMaxSat
