import EvalMaxSat.TotalizerShape

/-!
A totalizer tree that has grown is the tree that would have been built: what a node
holds depends on the bound reached and on the inputs below it, not on the way there.
-/
namespace EvalMaxSat
open Literals

namespace TotTree

/-- Every node counts as far as `rhs` and its outputs have the implicants of their index. -/
def CountsTo (rhs : Nat) : TotTree → Prop
  | .leaf _ => True
  | .node n vs l r => l.CountsTo rhs ∧ r.CountsTo rhs ∧ n = l.nofInput + r.nofInput ∧
      vs.length = min rhs n ∧
      ∀ i v, vs[i]? = some v → ∀ imp, imp ∈ v.impliquants ↔ Implicant l.nofInput r.nofInput i imp

def skeleton : TotTree → TotTree
  | .leaf v => .leaf v
  | .node n _ l r => .node n [] l.skeleton r.skeleton

/-- The same tree with, at each node, as many outputs and for each output the same set of
implicants. -/
def SameNodes : TotTree → TotTree → Prop
  | .leaf v, .leaf w => v = w
  | .node n vs l r, .node n' vs' l' r' => n = n' ∧ l.SameNodes l' ∧ r.SameNodes r' ∧
      vs.length = vs'.length ∧
      ∀ (i : Nat) (v v' : LazyVariable), vs[i]? = some v → vs'[i]? = some v' →
        ∀ imp, imp ∈ v.impliquants ↔ imp ∈ v'.impliquants
  | _, _ => False

def OutputsKept : TotTree → TotTree → Prop
  | .leaf v, .leaf w => v = w
  | .node n vs l r, .node n' vs' l' r' => n = n' ∧ l.OutputsKept l' ∧ r.OutputsKept r' ∧
      ∀ (i : Nat) (v : LazyVariable), vs[i]? = some v → vs'[i]? = some v
  | _, _ => False

theorem outputsKept_refl (t : TotTree) : t.OutputsKept t := by
  induction t with
  | leaf v => rfl
  | node n vs l r hl hr => exact ⟨rfl, hl, hr, fun _ _ found => found⟩

theorem increaseTo_keeps (rhs : Nat) (t : TotTree) : t.OutputsKept (t.increaseTo rhs) := by
  induction t with
  | leaf v => rfl
  | node n vs l r hl hr =>
    simp only [increaseTo]
    split
    · exact outputsKept_refl _
    · refine ⟨rfl, hl, hr, ?_⟩
      intro i v found
      rw [increaseUa_old (List.getElem?_eq_some_iff.mp found).1, found]

theorem skeleton_nofInput (t : TotTree) : t.skeleton.nofInput = t.nofInput := by
  cases t <;> rfl

theorem increaseTo_skeleton (rhs : Nat) (t : TotTree) :
    (t.increaseTo rhs).skeleton = t.skeleton := by
  induction t with
  | leaf v => rfl
  | node n vs l r hl hr =>
    simp only [increaseTo]
    split
    · rfl
    · simp only [skeleton, hl, hr]

theorem increaseTo_nofInput (rhs : Nat) (t : TotTree) :
    (t.increaseTo rhs).nofInput = t.nofInput := by
  rw [← skeleton_nofInput, increaseTo_skeleton, skeleton_nofInput]

theorem join_skeleton {b c : Nat} {l r l' r' : TotTree} (left : l.skeleton = l'.skeleton)
    (right : r.skeleton = r'.skeleton) : (join b l r).skeleton = (join c l' r').skeleton := by
  have ln : l.nofInput = l'.nofInput := by
    rw [← skeleton_nofInput l, left, skeleton_nofInput]
  have rn : r.nofInput = r'.nofInput := by
    rw [← skeleton_nofInput r, right, skeleton_nofInput]
  simp only [join, skeleton, left, right, ln, rn]

theorem joinAll_skeleton {b c : Nat} (fuel : Nat) {ts us : List TotTree}
    (same : ts.map skeleton = us.map skeleton) :
    (joinAll b fuel ts).skeleton = (joinAll c fuel us).skeleton := by
  induction fuel generalizing ts us with
  | zero =>
    match ts, us, same with
    | [], [], _ => rfl
    | t :: _, u :: _, same => exact (List.cons.inj same).1
  | succ fuel ih =>
    match ts, us, same with
    | [], [], _ => rfl
    | [t], [u], same => exact (List.cons.inj same).1
    | [_], _ :: _ :: _, same => simp at same
    | _ :: _ :: _, [_], same => simp at same
    | l :: r :: rest, l' :: r' :: rest', same =>
      simp only [List.map_cons, List.cons.injEq] at same
      obtain ⟨left, right, others⟩ := same
      apply ih
      rw [List.map_append, List.map_append, others, List.map_singleton, List.map_singleton,
        join_skeleton left right]

theorem build_skeleton (clause : Clause) (b c : Nat) :
    (build clause b).skeleton = (build clause c).skeleton := joinAll_skeleton _ rfl

section Counting
variable {rhs : Nat} {t u : TotTree}

theorem lazyVars_counts (pos : 0 < rhs) (counts : t.CountsTo rhs) (inputs : 0 < t.nofInput) :
    t.lazyVars.length = min rhs t.nofInput := by
  cases t with
  | leaf v => simp only [lazyVars, nofInput, List.length_singleton]; omega
  | node n vs l r => exact counts.2.2.2.1

theorem counts_beyond {further : Nat} (counts : t.CountsTo rhs) (all : t.nofInput ≤ rhs)
    (le : rhs ≤ further) : t.CountsTo further := by
  induction t with
  | leaf v => trivial
  | node n vs l r hl hr =>
    obtain ⟨cl, cr, total, length, imps⟩ := counts
    simp only [nofInput] at all
    exact ⟨hl cl (by omega), hr cr (by omega), total, by omega, imps⟩

def Peopled : TotTree → Prop
  | .leaf _ => True
  | .node n _ l r => 0 < n ∧ l.Peopled ∧ r.Peopled

theorem peopled_pos (peopled : t.Peopled) : 0 < t.nofInput := by
  cases t with
  | leaf v => exact Nat.one_pos
  | node n vs l r => exact peopled.1

theorem peopled_skeleton (same : t.skeleton = u.skeleton) : t.Peopled ↔ u.Peopled := by
  induction t generalizing u with
  | leaf v => cases u <;> simp [skeleton, Peopled] at same ⊢
  | node n vs l r hl hr =>
    cases u with
    | leaf v => simp [skeleton] at same
    | node n' vs' l' r' =>
      simp only [skeleton, TotTree.node.injEq, true_and] at same
      obtain ⟨total, left, right⟩ := same
      simp only [Peopled, total, hl left, hr right]

theorem joined_counts {l r : TotTree} (pos : 0 < rhs) (pl : l.Peopled) (pr : r.Peopled)
    (cl : l.CountsTo rhs) (cr : r.CountsTo rhs) : (join rhs l r).CountsTo rhs := by
  have ll := lazyVars_counts pos cl (peopled_pos pl)
  have lr := lazyVars_counts pos cr (peopled_pos pr)
  refine ⟨cl, cr, rfl, by simp [newUa, addImpliquants_length], ?_⟩
  intro i v found imp
  obtain ⟨lt, _, members⟩ := newUa_spec found
  rw [members]
  exact newUaCalls_implicant lt (by omega) (by omega) (by omega) (by omega)

theorem joinAll_counts (pos : 0 < rhs) (fuel : Nat) (ts : List TotTree)
    (each : ∀ t ∈ ts, t.Peopled ∧ t.CountsTo rhs) :
    (joinAll rhs fuel ts).Peopled ∧ (joinAll rhs fuel ts).CountsTo rhs := by
  induction fuel generalizing ts with
  | zero =>
    match ts, each with
    | [], _ => exact ⟨trivial, trivial⟩
    | t :: _, each => exact each t (by simp)
  | succ fuel ih =>
    match ts, each with
    | [], _ => exact ⟨trivial, trivial⟩
    | [t], each => exact each t (by simp)
    | l :: r :: rest, each =>
      obtain ⟨pl, cl⟩ := each l (by simp)
      obtain ⟨pr, cr⟩ := each r (by simp)
      apply ih
      intro t mem
      rcases List.mem_append.mp mem with old | new
      · exact each t (by simp [old])
      · obtain rfl := List.mem_singleton.mp new
        exact ⟨⟨Nat.add_pos_left (peopled_pos pl) _, pl, pr⟩, joined_counts pos pl pr cl cr⟩

theorem build_counts {c : Clause} {bound : Nat} (word : bound + 1 < 2 ^ 32) :
    (build c bound).Peopled ∧ (build c bound).CountsTo (bound + 1) := by
  rw [build, show u32 (bound + 1) = bound + 1 from Nat.mod_eq_of_lt word]
  apply joinAll_counts (Nat.succ_pos bound)
  intro t mem
  obtain ⟨l, _, rfl⟩ := List.mem_map.mp mem
  exact ⟨trivial, trivial⟩

theorem increaseTo_counts {further : Nat} (pos : 0 < rhs) (le : rhs ≤ further)
    (peopled : t.Peopled) (counts : t.CountsTo rhs) :
    (t.increaseTo further).CountsTo further := by
  induction t with
  | leaf v => trivial
  | node n vs l r hl hr =>
    obtain ⟨some, pl, pr⟩ := peopled
    have whole := counts
    obtain ⟨cl, cr, total, length, imps⟩ := counts
    simp only [increaseTo]
    split
    · rename_i enough
      rcases Nat.lt_or_ge rhs further with less | same
      · exact counts_beyond whole (show n ≤ rhs by omega) le
      · have : further = rhs := by omega
        rw [this]; exact whole
    · rename_i grows
      have cl' := hl pl cl
      have cr' := hr pr cr
      have ll := lazyVars_counts (by omega : 0 < further) cl'
        (by rw [increaseTo_nofInput]; exact peopled_pos pl)
      have lr := lazyVars_counts (by omega : 0 < further) cr'
        (by rw [increaseTo_nofInput]; exact peopled_pos pr)
      rw [increaseTo_nofInput] at ll lr
      have outputs : (increaseUa vs (l.increaseTo further).lazyVars.length
          (r.increaseTo further).lazyVars.length (min further n)).length = min further n := by
        simp only [increaseUa, addImpliquants_length, List.length_append, List.length_replicate]
        omega
      refine ⟨cl', cr', by simp only [increaseTo_nofInput]; exact total, outputs, ?_⟩
      intro i v found imp
      simp only [increaseTo_nofInput]
      by_cases old : i < vs.length
      · rw [increaseUa_old old] at found
        exact imps i v found imp
      · obtain ⟨lt, _, members⟩ := increaseUa_new (Nat.le_of_not_lt old) found
        rw [members]
        exact newUaCalls_implicant lt (by omega) (by omega) (by omega) (by omega)

theorem sameNodes_of_counts (same : t.skeleton = u.skeleton) (first : t.CountsTo rhs)
    (second : u.CountsTo rhs) : t.SameNodes u := by
  induction t generalizing u with
  | leaf v =>
    cases u with
    | leaf w => simpa [skeleton, SameNodes] using same
    | node n vs l r => simp [skeleton] at same
  | node n vs l r hl hr =>
    cases u with
    | leaf v => simp [skeleton] at same
    | node n' vs' l' r' =>
      simp only [skeleton, TotTree.node.injEq, true_and] at same
      obtain ⟨total, left, right⟩ := same
      obtain ⟨cl, cr, _, length, imps⟩ := first
      obtain ⟨cl', cr', _, length', imps'⟩ := second
      refine ⟨total, hl left cl cl', hr right cr cr', by omega, ?_⟩
      intro i v v' found found' imp
      have ln : l.nofInput = l'.nofInput := by
        rw [← skeleton_nofInput l, left, skeleton_nofInput]
      have rn : r.nofInput = r'.nofInput := by
        rw [← skeleton_nofInput r, right, skeleton_nofInput]
      rw [imps i v found imp, imps' i v' found' imp, ln, rn]

end Counting

def increaseAll (bounds : List Nat) (t : TotTree) : TotTree :=
  bounds.foldl (fun t newBound => t.increase newBound) t

theorem increaseAll_counts {bounds : List Nat} {b : Nat} {t : TotTree}
    (increasing : (b :: bounds).IsChain (· < ·)) (words : ∀ c ∈ b :: bounds, c + 1 < 2 ^ 32)
    (peopled : t.Peopled) (counts : t.CountsTo (b + 1)) :
    (increaseAll bounds t).skeleton = t.skeleton ∧
      (increaseAll bounds t).CountsTo (bounds.getLastD b + 1) := by
  induction bounds generalizing b t with
  | nil => exact ⟨rfl, counts⟩
  | cons c cs ih =>
    rw [List.isChain_cons_cons] at increasing
    have word : u32 (c + 1) = c + 1 := Nat.mod_eq_of_lt (words c (by simp))
    have grown : (t.increase c).CountsTo (c + 1) := by
      rw [increase, word]
      exact increaseTo_counts (Nat.succ_pos b) (by omega) peopled counts
    have same : (t.increase c).skeleton = t.skeleton := increaseTo_skeleton _ t
    obtain ⟨shape, final⟩ := ih increasing.2 (fun d mem => words d (List.mem_cons_of_mem b mem))
      ((peopled_skeleton same).mpr peopled) grown
    rw [List.getLastD_cons]
    exact ⟨shape.trans same, final⟩

/-- Growing a tree bound by bound gives the tree built for the last bound, and no call of
`increase` touches an output that is already there. -/
theorem growing_is_building {clause : Clause} {b : Nat} {bounds : List Nat}
    (increasing : (b :: bounds).IsChain (· < ·)) (words : ∀ c ∈ b :: bounds, c + 1 < 2 ^ 32) :
    (increaseAll bounds (build clause b)).SameNodes (build clause (bounds.getLastD b)) ∧
      ∀ (t : TotTree) (newBound : Nat), t.OutputsKept (t.increase newBound) := by
  obtain ⟨peopled, counts⟩ := build_counts (c := clause) (words b (by simp))
  obtain ⟨_, counts'⟩ := build_counts (c := clause)
    (words (bounds.getLastD b) List.getLastD_mem_cons)
  obtain ⟨shape, grown⟩ := increaseAll_counts increasing words peopled counts
  exact ⟨sameNodes_of_counts (shape.trans (build_skeleton clause _ _)) grown counts',
    fun t newBound => increaseTo_keeps _ t⟩

theorem growing_is_building_three :
    (increaseAll [1, 3] (build [1, 2, 3] 0)).SameNodes (build [1, 2, 3] 3) :=
  (@growing_is_building [1, 2, 3] 0 [1, 3] (by decide) (by decide)).1

/-- The greatest word has no successor: a tree built with it as bound has no outputs, and
growing to it does nothing. -/
theorem growing_differs_at_greatest_bound :
    ¬ ∀ (clause : Clause) (b : Nat) (bounds : List Nat), clause ≠ [] →
      (b :: bounds).IsChain (· < ·) → (∀ c ∈ b :: bounds, c < 2 ^ 32) →
      (increaseAll bounds (build clause b)).SameNodes (build clause (bounds.getLastD b)) := by
  intro claim
  obtain ⟨_, _, _, length, _⟩ := claim [1, 2] 0 [4294967295] (by decide) (by decide) (by decide)
  exact absurd length (by decide)

end TotTree
end EvalMaxSat
