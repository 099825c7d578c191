import EvalMaxSat.TotalizerShape

/-!
What the clauses of a totalizer say. In one direction: where enough inputs are true, the
output is true in every model. In the other: a model in which the outputs made so far
count exactly extends to one in which the outputs made next count exactly too.
-/
namespace EvalMaxSat
open Literals

class LawfulSink (τ : Type) [ClauseSink τ] where
  vars : τ → Nat
  clauses : τ → Cnf
  newVar_var : ∀ s, (ClauseSink.newVar s).1 = ((vars s + 1 : Nat) : Int)
  newVar_vars : ∀ s, vars (ClauseSink.newVar s).2 = vars s + 1
  newVar_clauses : ∀ s, clauses (ClauseSink.newVar s).2 = clauses s
  addClause_vars : ∀ s c, Within (vars s) c → vars (ClauseSink.addClause c s) = vars s
  addClause_clauses : ∀ s c, clauses (ClauseSink.addClause c s) = clauses s ++ [c]
  /-- How the rest of the sink may change. -/
  Grows : τ → τ → Prop
  grows_refl : ∀ s, Grows s s
  grows_trans : ∀ {s t u}, Grows s t → Grows t u → Grows s u
  newVar_grows : ∀ s, Grows s (ClauseSink.newVar s).2
  addClause_grows : ∀ s c, Within (vars s) c → Grows s (ClauseSink.addClause c s)

open LawfulSink

variable {τ : Type} [ClauseSink τ] [LawfulSink τ]

def ClausesWithin (s : τ) : Prop := ∀ c ∈ clauses s, Within (vars s) c

/-- Models of `s` with `φ` extend, on the variables that `t` adds, to models of `t` with `ψ`. -/
def Extends (s t : τ) (φ ψ : Assignment → Prop) : Prop :=
  vars s ≤ vars t ∧ clauses s ⊆ clauses t ∧ Grows s t ∧
    ∀ m, Models m (clauses s) → φ m →
      ∃ k, AgreeUpTo (vars s) m k ∧ Models k (clauses t) ∧ ψ k

theorem extends_refl (s : τ) (φ : Assignment → Prop) : Extends s s φ φ :=
  ⟨Nat.le_refl _, List.Subset.refl _, grows_refl s, fun m models h => ⟨m, agree_refl _ m, models, h⟩⟩

theorem extends_trans {s t u : τ} {φ ψ χ : Assignment → Prop} (first : Extends s t φ ψ)
    (second : Extends t u ψ χ) : Extends s u φ χ := by
  refine ⟨first.1.trans second.1, List.Subset.trans first.2.1 second.2.1,
    grows_trans first.2.2.1 second.2.2.1, ?_⟩
  intro m models h
  obtain ⟨k, agree, modelsK, hk⟩ := first.2.2.2 m models h
  obtain ⟨j, agree', modelsJ, hj⟩ := second.2.2.2 k modelsK hk
  exact ⟨j, agree_trans first.1 agree agree', modelsJ, hj⟩

theorem extends_frame {s t : τ} {φ ψ χ : Assignment → Prop} (h : Extends s t φ ψ)
    (frame : ∀ m k, AgreeUpTo (vars s) m k → χ m → χ k) :
    Extends s t (fun m => φ m ∧ χ m) (fun m => ψ m ∧ χ m) := by
  refine ⟨h.1, h.2.1, h.2.2.1, ?_⟩
  rintro m models ⟨hm, hx⟩
  obtain ⟨k, agree, modelsK, hk⟩ := h.2.2.2 m models hm
  exact ⟨k, agree, modelsK, hk, frame m k agree hx⟩

theorem extends_mono {s t : τ} {φ ψ φ' ψ' : Assignment → Prop} (h : Extends s t φ ψ)
    (stronger : ∀ m, φ' m → φ m) (weaker : ∀ m, ψ m → ψ' m) : Extends s t φ' ψ' := by
  refine ⟨h.1, h.2.1, h.2.2.1, ?_⟩
  intro m models hm
  obtain ⟨k, agree, modelsK, hk⟩ := h.2.2.2 m models (stronger m hm)
  exact ⟨k, agree, modelsK, weaker k hk⟩

theorem extends_newVar (s : τ) (φ : Assignment → Prop) (b : Assignment → Bool)
    (within : ClausesWithin s) (frame : ∀ m k, AgreeUpTo (vars s) m k → φ m → φ k) :
    Extends s (ClauseSink.newVar s).2 φ (fun k => φ k ∧
      ∃ m, AgreeUpTo (vars s) m k ∧ litTrue k (ClauseSink.newVar s).1 = b m) := by
  refine ⟨by rw [newVar_vars]; omega, by rw [newVar_clauses]; exact List.Subset.refl _,
    newVar_grows s, ?_⟩
  intro m models hm
  have agree : AgreeUpTo (vars s) m (assign m (vars s + 1) (b m)) :=
    assign_agree (Nat.lt_succ_self _)
  refine ⟨assign m (vars s + 1) (b m), agree, ?_, frame _ _ agree hm, m, agree, ?_⟩
  · rw [newVar_clauses]; exact (models_agree agree within).mpr models
  · rw [newVar_var, litTrue_natCast (Nat.succ_pos _), assign_self]

theorem extends_addClause {s : τ} {c : Clause} {φ : Assignment → Prop}
    (within : Within (vars s) c) (holds : ∀ m, Models m (clauses s) → φ m → Holds m c) :
    Extends s (ClauseSink.addClause c s) φ φ := by
  refine ⟨by rw [addClause_vars s c within], by rw [addClause_clauses]; simp,
    addClause_grows s c within, ?_⟩
  intro m models hm
  refine ⟨m, agree_refl _ m, ?_, hm⟩
  rw [addClause_clauses]
  exact models_append.mpr ⟨models, models_singleton.mpr (holds m models hm)⟩

theorem clausesWithin_addClause {s : τ} {c : Clause} (all : ClausesWithin s)
    (within : Within (vars s) c) : ClausesWithin (ClauseSink.addClause c s) := by
  intro d mem
  rw [addClause_clauses] at mem
  rw [addClause_vars s c within]
  rcases List.mem_append.mp mem with mem | mem
  · exact all d mem
  · simp at mem; subst mem; exact within

theorem clausesWithin_newVar {s : τ} (all : ClausesWithin s) :
    ClausesWithin (ClauseSink.newVar s).2 := by
  intro d mem
  rw [newVar_clauses] at mem
  rw [newVar_vars]
  exact within_mono (Nat.le_succ _) (all d mem)

namespace TotTree

/-- `P` holds of the inputs, the index and the variable of every output made so far. -/
def AllOutputs (P : List Int → Nat → Int → Prop) : TotTree → Prop
  | .leaf _ => True
  | .node _ vs l r => l.AllOutputs P ∧ r.AllOutputs P ∧
      ∀ i v x, vs[i]? = some v → v.var = some x → P (l.getClause ++ r.getClause) i x

theorem allOutputs_mono {P Q : List Int → Nat → Int → Prop} {t : TotTree}
    (h : t.AllOutputs P) (weaker : ∀ ls i x, P ls i x → Q ls i x) : t.AllOutputs Q := by
  induction t with
  | leaf v => trivial
  | node n vs l r hl hr =>
    exact ⟨hl h.1, hr h.2.1, fun i v x found made => weaker _ _ _ (h.2.2 i v x found made)⟩

def Exact (m : Assignment) (t : TotTree) : Prop :=
  t.AllOutputs fun ls i x => litTrue m x = decide (i + 1 ≤ trueCount m ls)

def Upward (m : Assignment) (t : TotTree) : Prop :=
  t.AllOutputs fun ls i x => i + 1 ≤ trueCount m ls → litTrue m x = true

def VarsUpTo (n : Nat) (t : TotTree) : Prop :=
  Within n t.getClause ∧ t.AllOutputs fun _ _ x => 0 < x ∧ x.natAbs ≤ n

structure Ready (t : TotTree) (s : τ) : Prop where
  wellFormed : t.WellFormed
  varsUpTo : t.VarsUpTo (vars s)
  sound : ∀ m, Models m (clauses s) → t.Upward m

theorem varsUpTo_node {n k : Nat} {vs : List LazyVariable} {l r : TotTree}
    (h : (TotTree.node k vs l r).VarsUpTo n) : l.VarsUpTo n ∧ r.VarsUpTo n :=
  ⟨⟨fun x mem => h.1 x (List.mem_append_left _ mem), h.2.1⟩,
    ⟨fun x mem => h.1 x (List.mem_append_right _ mem), h.2.2.1⟩⟩

theorem exact_agree {n : Nat} {m k : Assignment} {t : TotTree} (agree : AgreeUpTo n m k)
    (within : t.VarsUpTo n) (h : t.Exact m) : t.Exact k := by
  induction t with
  | leaf v => trivial
  | node a vs l r hl hr =>
    obtain ⟨wl, wr⟩ := varsUpTo_node within
    refine ⟨hl wl h.1, hr wr h.2.1, ?_⟩
    intro i v x found made
    have bound := (within.2.2.2 i v x found made).2
    have inputs : Within n (l.getClause ++ r.getClause) := within.1
    rw [litTrue_agree agree bound, trueCount_agree agree inputs]
    exact h.2.2 i v x found made

theorem ready_later {t : TotTree} {s u : τ} (ready : t.Ready s) (le : vars s ≤ vars u)
    (sub : clauses s ⊆ clauses u) : t.Ready u where
  wellFormed := ready.wellFormed
  varsUpTo := ⟨within_mono le ready.varsUpTo.1, allOutputs_mono ready.varsUpTo.2
    (fun _ _ _ h => ⟨h.1, h.2.trans le⟩)⟩
  sound := fun m models => ready.sound m (fun c mem => models c (sub mem))

theorem ready_node {n : Nat} {vs : List LazyVariable} {l r : TotTree} {s : τ}
    (ready : (TotTree.node n vs l r).Ready s) : l.Ready s ∧ r.Ready s := by
  obtain ⟨vl, vr⟩ := varsUpTo_node ready.varsUpTo
  exact ⟨⟨ready.wellFormed.1, vl, fun m models => (ready.sound m models).1⟩,
    ⟨ready.wellFormed.2.1, vr, fun m models => (ready.sound m models).2.1⟩⟩

structure Keeps (t u : TotTree) : Prop where
  inputs : u.getClause = t.getClause
  height : u.height = t.height
  outputs : u.lazyVars.length = t.lazyVars.length

theorem keeps_refl (t : TotTree) : t.Keeps t := ⟨rfl, rfl, rfl⟩

theorem keeps_trans {t u v : TotTree} (first : t.Keeps u) (second : u.Keeps v) : t.Keeps v :=
  ⟨second.inputs.trans first.inputs, second.height.trans first.height,
    second.outputs.trans first.outputs⟩

/-- The value a literal has when it is output `i` over the given inputs. -/
def Counts (inputs : List Int) (i : Nat) (x : Int) (m : Assignment) : Prop :=
  litTrue m x = decide (i + 1 ≤ trueCount m inputs)

theorem counts_agree {n i : Nat} {inputs : List Int} {x : Int} {m k : Assignment}
    (agree : AgreeUpTo n m k) (within : Within n inputs) (bound : x.natAbs ≤ n)
    (h : Counts inputs i x m) : Counts inputs i x k := by
  unfold Counts
  rw [litTrue_agree agree bound, trueCount_agree agree within]
  exact h

/-- What `get` on output `i` of `t` does. -/
structure GetSpec (t : TotTree) (i : Nat) (s : τ) (x : Int) (t' : TotTree) (s' : τ) : Prop where
  ready : t'.Ready s'
  within : ClausesWithin s'
  keeps : t.Keeps t'
  literal : x ≠ 0 ∧ x.natAbs ≤ vars s'
  upward : ∀ m, Models m (clauses s') → i + 1 ≤ trueCount m t.getClause → litTrue m x = true
  extend : Extends s s' (t.Exact ·) (fun m => t'.Exact m ∧ Counts t.getClause i x m)

def child (l r : TotTree) (c : Child) : TotTree :=
  match c.1 with
  | .left => l
  | .right => r

/-- What reading outputs of the children does; `φ` is what it learns about them. -/
structure Reads (l r : TotTree) (s : τ) (l' r' : TotTree) (s' : τ)
    (φ : Assignment → Prop) : Prop where
  left : l'.Ready s'
  right : r'.Ready s'
  within : ClausesWithin s'
  keepsLeft : l.Keeps l'
  keepsRight : r.Keeps r'
  extend : Extends s s' (fun m => l.Exact m ∧ r.Exact m)
    (fun m => (l'.Exact m ∧ r'.Exact m) ∧ φ m)

theorem reads_trans {l r l₁ r₁ l₂ r₂ : TotTree} {s s₁ s₂ : τ} {φ ψ : Assignment → Prop}
    (first : Reads l r s l₁ r₁ s₁ φ) (second : Reads l₁ r₁ s₁ l₂ r₂ s₂ ψ)
    (frame : ∀ m k, AgreeUpTo (vars s₁) m k → φ m → φ k) :
    Reads l r s l₂ r₂ s₂ (fun m => ψ m ∧ φ m) where
  left := second.left
  right := second.right
  within := second.within
  keepsLeft := keeps_trans first.keepsLeft second.keepsLeft
  keepsRight := keeps_trans first.keepsRight second.keepsRight
  extend := extends_mono (extends_trans first.extend (extends_frame second.extend frame))
    (fun _ h => h) (fun _ h => ⟨h.1.1, h.1.2, h.2⟩)

def Correct (h : Nat) (get : Getter τ) : Prop :=
  ∀ t i s, t.height ≤ h → t.Ready s → ClausesWithin s → i < t.lazyVars.length →
    GetSpec t i s (get t i s).1 (get t i s).2.1 (get t i s).2.2

theorem child_inputs {l r l' r' : TotTree} (kl : l.Keeps l') (kr : r.Keeps r') (c : Child) :
    (child l' r' c).getClause = (child l r c).getClause := by
  unfold child
  cases c.1
  · exact kl.inputs
  · exact kr.inputs

theorem child_outputs {l r l' r' : TotTree} (kl : l.Keeps l') (kr : r.Keeps r') (c : Child) :
    (child l' r' c).lazyVars.length = (child l r c).lazyVars.length := by
  unfold child
  cases c.1
  · exact kl.outputs
  · exact kr.outputs

def AllCount (l r : TotTree) (cs : List Child) (m : Assignment) : Prop :=
  ∀ c ∈ cs, c.2 + 1 ≤ trueCount m (child l r c).getClause

theorem allCount_keeps {l r l' r' : TotTree} (kl : l.Keeps l') (kr : r.Keeps r')
    (cs : List Child) (m : Assignment) : AllCount l' r' cs m ↔ AllCount l r cs m := by
  simp only [AllCount, child_inputs kl kr]

theorem child_within {l r : TotTree} {s : τ} (rl : l.Ready s) (rr : r.Ready s) (c : Child) :
    Within (vars s) (child l r c).getClause := by
  unfold child
  cases c.1
  · exact rl.varsUpTo.1
  · exact rr.varsUpTo.1

section Children
variable {h : Nat} {get : Getter τ} (correct : Correct h get)

include correct

theorem getChild_spec {l r : TotTree} {s : τ} {c : Child} (hl : l.height ≤ h)
    (hr : r.height ≤ h) (rl : l.Ready s) (rr : r.Ready s) (within : ClausesWithin s)
    (lt : c.2 < (child l r c).lazyVars.length) :
    let out := getChild get c l r s
    Reads l r s out.2.1 out.2.2.1 out.2.2.2 (Counts (child l r c).getClause c.2 out.1) ∧
      (out.1 ≠ 0 ∧ out.1.natAbs ≤ vars out.2.2.2) ∧
      ∀ m, Models m (clauses out.2.2.2) → c.2 + 1 ≤ trueCount m (child l r c).getClause →
        litTrue m out.1 = true := by
  obtain ⟨side, k⟩ := c
  cases side with
  | left =>
    have spec := correct l k s hl rl within lt
    simp only [getChild, child]
    refine ⟨⟨spec.ready, ready_later rr spec.extend.1 spec.extend.2.1, spec.within, spec.keeps,
      keeps_refl r, ?_⟩, spec.literal, spec.upward⟩
    refine extends_mono (extends_frame (χ := fun m => r.Exact m) spec.extend ?_)
      (fun _ e => e) (fun _ e => ⟨⟨e.1.1, e.2⟩, e.1.2⟩)
    intro m k agree exact_r
    exact exact_agree agree rr.varsUpTo exact_r
  | right =>
    have spec := correct r k s hr rr within lt
    simp only [getChild, child]
    refine ⟨⟨ready_later rl spec.extend.1 spec.extend.2.1, spec.ready, spec.within, keeps_refl l,
      spec.keeps, ?_⟩, spec.literal, spec.upward⟩
    refine extends_mono (extends_frame (χ := fun m => l.Exact m) spec.extend ?_)
      (fun _ e => ⟨e.2, e.1⟩) (fun _ e => ⟨⟨e.2, e.1.1⟩, e.1.2⟩)
    intro m k agree exact_l
    exact exact_agree agree rl.varsUpTo exact_l

theorem getImplicant_spec (cs : List Child) {l r : TotTree} {s : τ} (hl : l.height ≤ h)
    (hr : r.height ≤ h) (rl : l.Ready s) (rr : r.Ready s) (within : ClausesWithin s)
    (lt : ∀ c ∈ cs, c.2 < (child l r c).lazyVars.length) :
    let out := getImplicant get cs l r s
    Reads l r s out.2.1 out.2.2.1 out.2.2.2 (fun m => ¬ AllCount l r cs m → Holds m out.1) ∧
      Within (vars out.2.2.2) out.1 ∧
      ∀ m, Models m (clauses out.2.2.2) → AllCount l r cs m → ¬ Holds m out.1 := by
  induction cs generalizing l r s with
  | nil =>
    simp only [getImplicant]
    refine ⟨⟨rl, rr, within, keeps_refl l, keeps_refl r, ?_⟩, by intro x mem; simp at mem, ?_⟩
    · refine extends_mono (extends_refl s _) (fun _ e => e) (fun m e => ⟨e, ?_⟩)
      intro none
      exact absurd (fun c mem => by simp at mem) none
    · rintro m _ _ ⟨x, mem, _⟩; simp at mem
  | cons c cs ih =>
    obtain ⟨first, literal, up⟩ := getChild_spec correct hl hr rl rr within (lt c (by simp))
    generalize out₁ : getChild get c l r s = out at first literal up
    obtain ⟨x, l₁, r₁, s₁⟩ := out
    simp only at first literal up
    obtain ⟨rest, wRest, upRest⟩ := ih (l := l₁) (r := r₁) (s := s₁)
      (by rw [first.keepsLeft.height]; exact hl) (by rw [first.keepsRight.height]; exact hr)
      first.left first.right first.within (by
        intro d mem
        rw [child_outputs first.keepsLeft first.keepsRight]
        exact lt d (by simp [mem]))
    simp only [getImplicant, out₁]
    generalize out₂ : getImplicant get cs l₁ r₁ s₁ = out at rest wRest upRest
    obtain ⟨clause, l₂, r₂, s₂⟩ := out
    simp only at rest wRest upRest ⊢
    have whole := reads_trans first rest (fun m k agree =>
      counts_agree agree (by
        rw [← child_inputs first.keepsLeft first.keepsRight]
        exact child_within first.left first.right c) literal.2)
    refine ⟨⟨whole.left, whole.right, whole.within, whole.keepsLeft, whole.keepsRight,
      extends_mono whole.extend (fun _ e => e) ?_⟩, ?_, ?_⟩
    · rintro m ⟨exacts, tail, counts⟩
      refine ⟨exacts, fun notAll => ?_⟩
      by_cases head : c.2 + 1 ≤ trueCount m (child l r c).getClause
      · have : ¬ AllCount l₁ r₁ cs m := by
          rw [allCount_keeps first.keepsLeft first.keepsRight]
          intro all
          apply notAll
          intro d mem
          rcases List.mem_cons.mp mem with same | mem
          · subst same; exact head
          · exact all d mem
        obtain ⟨y, mem, holds⟩ := tail this
        exact ⟨y, by simp [mem], holds⟩
      · refine ⟨-x, by simp, ?_⟩
        rw [litTrue_neg literal.1, counts]
        simp [head]
    · intro y mem
      rcases List.mem_cons.mp mem with same | mem
      · subst same
        exact ⟨by simpa using literal.1, by rw [Int.natAbs_neg]; exact literal.2.trans rest.extend.1⟩
      · exact wRest y mem
    · rintro m models all ⟨y, mem, holds⟩
      rcases List.mem_cons.mp mem with same | mem
      · subst same
        have : litTrue m x = true := up m (fun d hd => models d (rest.extend.2.1 hd))
          (all c (by simp))
        rw [litTrue_neg literal.1, this] at holds
        simp at holds
      · refine upRest m models ?_ ⟨y, mem, holds⟩
        rw [allCount_keeps first.keepsLeft first.keepsRight]
        intro d hd
        exact all d (by simp [hd])

theorem addImplications_spec (imps : List (List Child)) {x : Int} {i : Nat} {l r : TotTree}
    {s : τ} (hl : l.height ≤ h) (hr : r.height ≤ h) (rl : l.Ready s) (rr : r.Ready s)
    (within : ClausesWithin s) (literal : x ≠ 0 ∧ x.natAbs ≤ vars s)
    (lt : ∀ cs ∈ imps, ∀ c ∈ cs, c.2 < (child l r c).lazyVars.length)
    (enough : ∀ cs ∈ imps, ∀ m, AllCount l r cs m →
      i + 1 ≤ trueCount m (l.getClause ++ r.getClause)) :
    let out := addImplications get x imps l r s
    out.1.Ready out.2.2 ∧ out.2.1.Ready out.2.2 ∧ ClausesWithin out.2.2 ∧
      l.Keeps out.1 ∧ r.Keeps out.2.1 ∧
      Extends s out.2.2 (fun m => (l.Exact m ∧ r.Exact m) ∧ Counts (l.getClause ++ r.getClause) i x m)
        (fun m => (out.1.Exact m ∧ out.2.1.Exact m) ∧ Counts (l.getClause ++ r.getClause) i x m) ∧
      ∀ m, Models m (clauses out.2.2) → ∀ cs ∈ imps, AllCount l r cs m → litTrue m x = true := by
  induction imps generalizing l r s with
  | nil =>
    simp only [addImplications]
    exact ⟨rl, rr, within, keeps_refl l, keeps_refl r, extends_refl s _, by simp⟩
  | cons imp imps ih =>
    obtain ⟨reads, wClause, up⟩ := getImplicant_spec correct imp hl hr rl rr within (lt imp (by simp))
    simp only [addImplications]
    generalize getImplicant get imp l r s = out at reads wClause up
    obtain ⟨clause, l₁, r₁, s₁⟩ := out
    simp only at reads wClause up ⊢
    have boundX : x.natAbs ≤ vars s₁ := literal.2.trans reads.extend.1
    have wAll : Within (vars s₁) (clause ++ [x]) := by
      intro y mem
      rcases List.mem_append.mp mem with mem | mem
      · exact wClause y mem
      · simp at mem; subst mem; exact ⟨literal.1, boundX⟩
    have inputs : l₁.getClause ++ r₁.getClause = l.getClause ++ r.getClause := by
      rw [reads.keepsLeft.inputs, reads.keepsRight.inputs]
    have wInputs : Within (vars s) (l.getClause ++ r.getClause) := by
      intro y mem
      rcases List.mem_append.mp mem with mem | mem
      · exact rl.varsUpTo.1 y mem
      · exact rr.varsUpTo.1 y mem
    have framed := extends_frame (χ := Counts (l.getClause ++ r.getClause) i x) reads.extend
      (fun m k agree => counts_agree agree wInputs literal.2)
    have emitted := extends_addClause (φ := fun m => ((l₁.Exact m ∧ r₁.Exact m) ∧
        (¬ AllCount l r imp m → Holds m clause)) ∧ Counts (l.getClause ++ r.getClause) i x m)
      wAll (by
        rintro m _ ⟨⟨_, partial'⟩, counts⟩
        by_cases all : AllCount l r imp m
        · refine ⟨x, by simp, ?_⟩
          rw [counts]
          simpa using enough imp (by simp) m all
        · obtain ⟨y, mem, holds⟩ := partial' all
          exact ⟨y, by simp [mem], holds⟩)
    have step := extends_trans framed emitted
    have sub := emitted.2.1
    have vars₂ : vars (ClauseSink.addClause (clause ++ [x]) s₁) = vars s₁ := addClause_vars _ _ wAll
    obtain ⟨rl₂, rr₂, within₂, kl₂, kr₂, ext₂, up₂⟩ := ih (l := l₁) (r := r₁)
      (s := ClauseSink.addClause (clause ++ [x]) s₁)
      (by rw [reads.keepsLeft.height]; exact hl) (by rw [reads.keepsRight.height]; exact hr)
      (ready_later reads.left (by rw [vars₂]) sub) (ready_later reads.right (by rw [vars₂]) sub)
      (clausesWithin_addClause reads.within wAll) ⟨literal.1, by rw [vars₂]; exact boundX⟩
      (by
        intro cs mem c hc
        rw [child_outputs reads.keepsLeft reads.keepsRight]
        exact lt cs (by simp [mem]) c hc)
      (by
        intro cs mem m all
        rw [inputs]
        rw [allCount_keeps reads.keepsLeft reads.keepsRight] at all
        exact enough cs (by simp [mem]) m all)
    rw [inputs] at ext₂
    refine ⟨rl₂, rr₂, within₂, keeps_trans reads.keepsLeft kl₂, keeps_trans reads.keepsRight kr₂,
      extends_trans step (extends_mono ext₂ (fun _ e => ⟨e.1.1, e.2⟩) (fun _ e => e)), ?_⟩
    intro m models cs mem all
    rcases List.mem_cons.mp mem with same | mem
    · subst same
      have emittedHolds : Holds m (clause ++ [x]) := models _ (ext₂.2.1 (by
        rw [addClause_clauses]; simp))
      have before : Models m (clauses s₁) := fun d hd => models d (ext₂.2.1 (sub hd))
      obtain ⟨y, memY, holds⟩ := emittedHolds
      rcases List.mem_append.mp memY with memY | memY
      · exact absurd ⟨y, memY, holds⟩ (up m before all)
      · simp at memY; subst memY; exact holds
    · refine up₂ m models cs mem ?_
      rw [allCount_keeps reads.keepsLeft reads.keepsRight]
      exact all

end Children

theorem trueCount_append (m : Assignment) (ls ks : List Int) :
    trueCount m (ls ++ ks) = trueCount m ls + trueCount m ks := List.countP_append

theorem trueCount_le (m : Assignment) (ls : List Int) : trueCount m ls ≤ ls.length :=
  List.countP_le_length

theorem implicant_counts {l r : TotTree} {i : Nat} {imp : List Child} {m : Assignment}
    (h : Implicant l.getClause.length r.getClause.length i imp) (all : AllCount l r imp m) :
    i + 1 ≤ trueCount m (l.getClause ++ r.getClause) := by
  rw [trueCount_append]
  rcases h with ⟨_, eq⟩ | ⟨_, eq⟩ | ⟨x, y, _, _, sum, eq⟩
  · subst eq
    have := all (Side.right, i) (by simp)
    simp only [child] at this; omega
  · subst eq
    have := all (Side.left, i) (by simp)
    simp only [child] at this; omega
  · subst eq
    have left := all (Side.left, x) (by simp)
    have right := all (Side.right, y) (by simp)
    simp only [child] at left right; omega

theorem counts_implicant {l r : TotTree} {i : Nat} {m : Assignment}
    (enough : i + 1 ≤ trueCount m (l.getClause ++ r.getClause)) :
    ∃ imp, Implicant l.getClause.length r.getClause.length i imp ∧ AllCount l r imp m := by
  rw [trueCount_append] at enough
  have boundL := trueCount_le m l.getClause
  have boundR := trueCount_le m r.getClause
  by_cases allLeft : i + 1 ≤ trueCount m l.getClause
  · refine ⟨_, Or.inr (Or.inl ⟨by omega, rfl⟩), ?_⟩
    intro c mem
    simp at mem; subst mem; exact allLeft
  · by_cases allRight : i + 1 ≤ trueCount m r.getClause
    · refine ⟨_, Or.inl ⟨by omega, rfl⟩, ?_⟩
      intro c mem
      simp at mem; subst mem; exact allRight
    · refine ⟨_, Or.inr (Or.inr ⟨trueCount m l.getClause - 1, i - trueCount m l.getClause,
        by omega, by omega, by omega, rfl⟩), ?_⟩
      intro c mem
      simp at mem
      rcases mem with same | same
      · subst same; simp only [child]; omega
      · subst same; simp only [child]; omega

theorem getClause_pos {t : TotTree} (wf : t.WellFormed) : 0 < t.getClause.length := by
  cases t with
  | leaf v => simp [getClause]
  | node n vs l r =>
    have := getClause_pos wf.1
    simp only [getClause, List.length_append]; omega

/-- No output of a node is a copy of an output of a child. -/
theorem impliquants_not_single {n i : Nat} {vs : List LazyVariable} {l r : TotTree}
    (wf : (TotTree.node n vs l r).WellFormed) {v : LazyVariable} (found : vs[i]? = some v)
    (c : Child) : v.impliquants ≠ [[c]] := by
  obtain ⟨wl, wr, total, short, _, _, imps⟩ := wf
  intro single
  have posL := getClause_pos wl
  have posR := getClause_pos wr
  have lt : i < vs.length := (List.getElem?_eq_some_iff.mp found).1
  have only : ∀ imp, Implicant l.getClause.length r.getClause.length i imp → imp = [c] := by
    intro imp h
    have := (imps i v found imp).mpr h
    rw [single] at this
    simpa using this
  rcases Nat.eq_zero_or_pos i with zero | pos
  · subst zero
    have left := only _ (Or.inr (Or.inl ⟨posL, rfl⟩))
    have right := only _ (Or.inl ⟨posR, rfl⟩)
    rw [← left] at right
    simp at right
  · have pair := only _ (Or.inr (Or.inr ⟨min (i - 1) (l.getClause.length - 1),
      i - 1 - min (i - 1) (l.getClause.length - 1), by omega, by omega, by omega, rfl⟩))
    simp at pair

theorem child_index {n i : Nat} {vs : List LazyVariable} {l r : TotTree}
    (wf : (TotTree.node n vs l r).WellFormed) {v : LazyVariable} (found : vs[i]? = some v) :
    ∀ cs ∈ v.impliquants, ∀ c ∈ cs, c.2 < (child l r c).lazyVars.length := by
  obtain ⟨_, _, _, _, ll, lr, imps⟩ := wf
  have lt : i < vs.length := (List.getElem?_eq_some_iff.mp found).1
  intro cs mem c hc
  rcases (imps i v found cs).mp mem with ⟨bound, eq⟩ | ⟨bound, eq⟩ | ⟨x, y, bx, bound, sum, eq⟩
  · subst eq; simp at hc; subst hc; simp only [child]; omega
  · subst eq; simp at hc; subst hc; simp only [child]; omega
  · subst eq
    simp at hc
    rcases hc with same | same
    · subst same; simp only [child]; omega
    · subst same; simp only [child]; omega

omit [LawfulSink τ] in
theorem getAt_made {n i h : Nat} {vs : List LazyVariable} {l r : TotTree} {s : τ}
    {v : LazyVariable} {x : Int} (found : vs[i]? = some v) (made : v.var = some x) :
    getAt (h + 1) (.node n vs l r) i s = (x, .node n vs l r, s) := by
  simp [getAt, found, made]

omit [LawfulSink τ] in
theorem getAt_new {n i h : Nat} {vs : List LazyVariable} {l r : TotTree} {s : τ}
    {v : LazyVariable} (found : vs[i]? = some v) (unmade : v.var = none)
    (several : ∀ c, v.impliquants ≠ [[c]]) :
    getAt (h + 1) (.node n vs l r) i s = ((ClauseSink.newVar s).1,
      .node n (vs.set i { v with var := some (ClauseSink.newVar s).1 })
        (addImplications (getAt h) (ClauseSink.newVar s).1 v.impliquants l r
          (ClauseSink.newVar s).2).1
        (addImplications (getAt h) (ClauseSink.newVar s).1 v.impliquants l r
          (ClauseSink.newVar s).2).2.1,
      (addImplications (getAt h) (ClauseSink.newVar s).1 v.impliquants l r
        (ClauseSink.newVar s).2).2.2) := by
  simp only [getAt, found, unmade]

theorem getElem?_set_made {vs : List LazyVariable} {i j : Nat} {v w : LazyVariable} {x : Int}
    (found : vs[i]? = some v) (at_j : (vs.set i { v with var := some x })[j]? = some w) :
    (j = i ∧ w = { v with var := some x }) ∨ (j ≠ i ∧ vs[j]? = some w) := by
  have lt : i < vs.length := (List.getElem?_eq_some_iff.mp found).1
  by_cases same : j = i
  · subst same
    rw [List.getElem?_set_self lt] at at_j
    exact Or.inl ⟨rfl, (Option.some.inj at_j).symm⟩
  · rw [List.getElem?_set_ne (Ne.symm same)] at at_j
    exact Or.inr ⟨same, at_j⟩

section Made
variable {n i : Nat} {vs : List LazyVariable} {l r l' r' : TotTree} {v : LazyVariable} {x : Int}

/-- A node whose output `i` is made, over children that keep their inputs. -/
theorem allOutputs_made {P : List Int → Nat → Int → Prop} (found : vs[i]? = some v)
    (kl : l.Keeps l') (kr : r.Keeps r') (left : l'.AllOutputs P) (right : r'.AllOutputs P)
    (own : P (l.getClause ++ r.getClause) i x)
    (others : ∀ j w y, j ≠ i → vs[j]? = some w → w.var = some y →
      P (l.getClause ++ r.getClause) j y) :
    (TotTree.node n (vs.set i { v with var := some x }) l' r').AllOutputs P := by
  refine ⟨left, right, ?_⟩
  intro j w y at_j made
  rw [kl.inputs, kr.inputs]
  rcases getElem?_set_made found at_j with ⟨same, eq⟩ | ⟨ne, at_j⟩
  · subst same; subst eq
    have var : x = y := Option.some.inj made
    rw [← var]
    exact own
  · exact others j w y ne at_j made

theorem wellFormed_made (wf : (TotTree.node n vs l r).WellFormed) (found : vs[i]? = some v)
    (kl : l.Keeps l') (kr : r.Keeps r') (wl : l'.WellFormed) (wr : r'.WellFormed) :
    (TotTree.node n (vs.set i { v with var := some x }) l' r').WellFormed := by
  obtain ⟨_, _, total, short, ll, lr, imps⟩ := wf
  refine ⟨wl, wr, ?_, ?_, ?_, ?_, ?_⟩
  · rw [kl.inputs, kr.inputs]; exact total
  · rw [List.length_set]; exact short
  · rw [List.length_set, kl.inputs, kl.outputs]; exact ll
  · rw [List.length_set, kr.inputs, kr.outputs]; exact lr
  · intro j w at_j imp
    rw [kl.inputs, kr.inputs]
    rcases getElem?_set_made found at_j with ⟨same, eq⟩ | ⟨_, at_j⟩
    · subst same; subst eq; exact imps _ v found imp
    · exact imps j w at_j imp

end Made

theorem getAt_new_spec {n i h : Nat} {vs : List LazyVariable} {l r : TotTree} {s : τ}
    {v : LazyVariable} (correct : Correct h (getAt h (τ := τ))) (hl : l.height ≤ h)
    (hr : r.height ≤ h) (ready : (TotTree.node n vs l r).Ready s) (within : ClausesWithin s)
    (found : vs[i]? = some v) (unmade : v.var = none) :
    GetSpec (.node n vs l r) i s (getAt (h + 1) (.node n vs l r) i s).1
      (getAt (h + 1) (.node n vs l r) i s).2.1 (getAt (h + 1) (.node n vs l r) i s).2.2 := by
  obtain ⟨rl, rr⟩ := ready_node ready
  have wf := ready.wellFormed
  have imps := wf.2.2.2.2.2.2 i v found
  rw [getAt_new found unmade (impliquants_not_single wf found)]
  have agreeExact : ∀ m k, AgreeUpTo (vars s) m k → (TotTree.node n vs l r).Exact m →
      (TotTree.node n vs l r).Exact k :=
    fun m k agree exact => exact_agree agree ready.varsUpTo exact
  have fresh := extends_newVar s (fun m => (TotTree.node n vs l r).Exact m)
    (fun m => decide (i + 1 ≤ trueCount m (l.getClause ++ r.getClause))) within agreeExact
  have varsNew := newVar_vars s
  have literal : (ClauseSink.newVar s).1 ≠ 0 ∧
      (ClauseSink.newVar s).1.natAbs ≤ vars (ClauseSink.newVar s).2 := by
    rw [newVar_var, varsNew]; omega
  have positive : 0 < (ClauseSink.newVar s).1 := by rw [newVar_var]; omega
  obtain ⟨rl', rr', within', kl, kr, ext, up⟩ := addImplications_spec correct v.impliquants
    (x := (ClauseSink.newVar s).1) (i := i) hl hr
    (ready_later rl fresh.1 fresh.2.1) (ready_later rr fresh.1 fresh.2.1)
    (clausesWithin_newVar within) literal (child_index wf found)
    (fun cs mem m all => implicant_counts ((imps cs).mp mem) all)
  generalize addImplications (getAt h) (ClauseSink.newVar s).1 v.impliquants l r
    (ClauseSink.newVar s).2 = out at rl' rr' within' kl kr ext up
  obtain ⟨l', r', s'⟩ := out
  simp only at rl' rr' within' kl kr ext up ⊢
  have le : vars s ≤ vars s' := fresh.1.trans ext.1
  have sub : clauses s ⊆ clauses s' := List.Subset.trans fresh.2.1 ext.2.1
  have inputs : l'.getClause ++ r'.getClause = l.getClause ++ r.getClause := by
    rw [kl.inputs, kr.inputs]
  have upward : ∀ m, Models m (clauses s') →
      i + 1 ≤ trueCount m (l.getClause ++ r.getClause) →
      litTrue m (ClauseSink.newVar s).1 = true := by
    intro m models enough
    obtain ⟨imp, is_imp, all⟩ := counts_implicant enough
    exact up m models imp ((imps imp).mpr is_imp) all
  have old := ready_later ready le sub
  have framed := extends_frame
    (χ := fun m => ∀ j w y, j ≠ i → vs[j]? = some w → w.var = some y →
      Counts (l.getClause ++ r.getClause) j y m) ext (by
    intro m k agree others j w y ne at_j made
    have bound := (ready.varsUpTo.2.2.2 j w y at_j made).2
    exact counts_agree agree (within_mono fresh.1 ready.varsUpTo.1) (bound.trans fresh.1)
      (others j w y ne at_j made))
  refine ⟨⟨wellFormed_made wf found kl kr rl'.wellFormed rr'.wellFormed, ⟨?_, ?_⟩, ?_⟩, within',
    ⟨inputs, ?_, ?_⟩, ⟨literal.1, literal.2.trans ext.1⟩, upward, ?_⟩
  · change Within _ (l'.getClause ++ r'.getClause)
    rw [inputs]; exact old.varsUpTo.1
  · exact allOutputs_made found kl kr rl'.varsUpTo.2 rr'.varsUpTo.2
      ⟨positive, literal.2.trans ext.1⟩ fun j w y _ at_j made => old.varsUpTo.2.2.2 j w y at_j made
  · intro m models
    exact allOutputs_made found kl kr (rl'.sound m models) (rr'.sound m models) (upward m models)
      fun j w y _ at_j made => (old.sound m models).2.2 j w y at_j made
  · simp only [height, kl.height, kr.height]
  · simp only [lazyVars, List.length_set]
  · refine extends_mono (extends_trans fresh (extends_mono framed ?_ (fun _ e => e)))
      (fun _ e => e) ?_
    · rintro m ⟨exact, m₀, agree, value⟩
      refine ⟨⟨⟨exact.1, exact.2.1⟩, ?_⟩, fun j w y _ at_j made => exact.2.2 j w y at_j made⟩
      unfold Counts
      have same : trueCount m (l.getClause ++ r.getClause) =
          trueCount m₀ (l.getClause ++ r.getClause) := trueCount_agree agree ready.varsUpTo.1
      rw [value, same]
    · rintro m ⟨⟨⟨exactL, exactR⟩, counts⟩, others⟩
      exact ⟨allOutputs_made found kl kr exactL exactR counts others, counts⟩

theorem getAt_correct (h : Nat) : Correct h (getAt h (τ := τ)) := by
  induction h with
  | zero =>
    intro t i s height ready within lt
    cases t with
    | node n vs l r => simp [TotTree.height] at height
    | leaf v => exact leaf_spec ready within lt
  | succ h ih =>
    intro t i s height ready within lt
    cases t with
    | leaf v => exact leaf_spec ready within lt
    | node n vs l r =>
      simp only [TotTree.height] at height
      have found : vs[i]? = some vs[i] := List.getElem?_eq_getElem lt
      cases made : vs[i].var with
      | none => exact getAt_new_spec ih (by omega) (by omega) ready within found made
      | some x =>
        rw [getAt_made found made]
        have bound := ready.varsUpTo.2.2.2 i _ x found made
        refine ⟨ready, within, keeps_refl _, ⟨by omega, bound.2⟩,
          fun m models => (ready.sound m models).2.2 i _ x found made, ?_⟩
        exact extends_mono (extends_refl s (fun m => (TotTree.node n vs l r).Exact m))
          (fun _ e => e) (fun m e => ⟨e, e.2.2 i _ x found made⟩)
where
  leaf_spec {h i : Nat} {v : LazyVariable} {s : τ} (ready : (TotTree.leaf v).Ready s)
      (within : ClausesWithin s) (lt : i < (TotTree.leaf v).lazyVars.length) :
      GetSpec (.leaf v) i s (getAt h (.leaf v) i s).1 (getAt h (.leaf v) i s).2.1
        (getAt h (.leaf v) i s).2.2 := by
    have zero : i = 0 := by simp [lazyVars] at lt; exact lt
    subst zero
    obtain ⟨_, x, made, nonzero⟩ := ready.wellFormed
    have inputs : (TotTree.leaf v).getClause = [x] := by simp [getClause, made]
    have out : getAt h (.leaf v) 0 s = (x, .leaf v, s) := by cases h <;> simp [getAt, made]
    have counts : ∀ m, Counts [x] 0 x m := by
      intro m
      unfold Counts trueCount
      cases value : litTrue m x <;> simp [value]
    rw [out]
    refine ⟨ready, within, keeps_refl _, ⟨nonzero, (ready.varsUpTo.1 x (by simp [inputs])).2⟩, ?_, ?_⟩
    · intro m _ enough
      rw [inputs] at enough
      have := counts m
      rw [Counts] at this
      rw [this]; simpa using enough
    · rw [inputs]
      exact extends_mono (extends_refl s (fun m => (TotTree.leaf v).Exact m)) (fun _ e => e)
        (fun m e => ⟨e, counts m⟩)

theorem get_spec {t : TotTree} {i : Nat} {s : τ} (ready : t.Ready s) (within : ClausesWithin s)
    (lt : i < t.lazyVars.length) :
    GetSpec t i s (t.get i s).1 (t.get i s).2.1 (t.get i s).2.2 :=
  getAt_correct t.height t i s (Nat.le_refl _) ready within lt

end TotTree
end EvalMaxSat
