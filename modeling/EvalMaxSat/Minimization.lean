import EvalMaxSat.ExactPass

/-!
Core minimisation: whatever the limited calls answer and the clocks say, what is left is a
core, and the search for a better one ends.
-/
namespace EvalMaxSat
open Literals OrderedContainers LawfulSink EvalMaxSAT StepProgram

variable {K : Type} {env : Env K} {lo : Option LocalOptimizer2} {s t u : EvalMaxSAT K}

structure IsCore (f : Cnf) (assum : OSet Int) (c : Clause) : Prop where
  nodup : c.Nodup
  sub : ∀ l ∈ c, l ∈ assum
  refuted : Inconsistent f c

def Refuted (s : EvalMaxSAT K) (assum : OSet Int) : Prop :=
  ∃ failed, s.solver.last = .unsat failed ∧
    Inconsistent s.solver.clauses (assum.elems.filter (· ∈ failed))

theorem isCore_getConflict {assum : OSet Int} (refuted : Refuted s assum) :
    IsCore s.solver.clauses assum (s.solver.getConflict assum.elems) := by
  obtain ⟨failed, last, core⟩ := refuted
  simp only [Solver_cadical.getConflict, last]
  exact ⟨assum.nodup.filter _, fun l mem => (List.mem_filter.mp mem).1, core⟩

theorem isCore_perm {f : Cnf} {assum : OSet Int} {c d : Clause} (core : IsCore f assum c)
    (perm : d.Perm c) : IsCore f assum d :=
  ⟨perm.symm.nodup core.nodup, fun l mem => core.sub l (perm.subset mem),
    inconsistent_sub perm.symm.subset core.refuted⟩

theorem isCore_sub {f : Cnf} {assum : OSet Int} {c d e : Clause} (core : IsCore f assum c)
    (sub : d.Sublist c) (fewer : e ⊆ d) (refuted : Inconsistent f e) : IsCore f assum d :=
  ⟨sub.nodup core.nodup, fun l mem => core.sub l (sub.subset mem),
    inconsistent_sub fewer refuted⟩

theorem isCore_swapRemove {f : Cnf} {assum : OSet Int} {d e : Clause} {i : Nat} {x : Int}
    (core : IsCore f assum d) (here : d[i]? = some x) (fewer : e ⊆ d.filter (· ≠ x))
    (refuted : Inconsistent f e) :
    IsCore f assum (swapRemove d i) ∧ d.length = (swapRemove d i).length + 1 := by
  obtain ⟨pre, post, shape, perm⟩ := swapRemove_perm here
  have sub : (pre ++ post).Sublist d := by
    rw [shape]
    exact List.Sublist.append_left (List.sublist_cons_self x post) pre
  have within : e ⊆ pre ++ post := by
    intro l mem
    have left := fewer mem
    rw [shape] at left
    simp only [ne_eq, decide_not, List.mem_filter, List.mem_append, List.mem_cons,
      Bool.not_eq_eq_eq_not, Bool.not_true, decide_eq_false_iff_not] at left
    rcases left with ⟨mem | same | mem, ne⟩
    · exact List.mem_append_left _ mem
    · exact absurd same ne
    · exact List.mem_append_right _ mem
  refine ⟨isCore_perm (isCore_sub core sub within refuted) perm, ?_⟩
  rw [perm.length_eq, shape]
  simp only [List.length_append, List.length_cons]
  omega

def scores (env : Env K) (s : EvalMaxSAT K) (assum : OSet Int) : Finset ℚ :=
  insert 0 ((Finset.range (assum.elems.length + 1) ×ˢ (0 :: assum.elems).toFinset).image
    fun x => env.quotient x.1 (u64 (s.weight x.2)))

theorem score_mem {assum : OSet Int} {c d : Clause} (core : IsCore s.solver.clauses assum c)
    (other : IsCore s.solver.clauses assum d) :
    env.quotient c.length (u64 (s.weight (d.getLastD 0))) ∈ scores env s assum := by
  have length : c.length ≤ assum.elems.length :=
    (List.Nodup.subperm core.nodup core.sub).length_le
  refine Finset.mem_insert_of_mem (Finset.mem_image.mpr ⟨(c.length, d.getLastD 0), ?_, rfl⟩)
  refine Finset.mem_product.mpr ⟨Finset.mem_range.mpr (by omega), ?_⟩
  rw [List.mem_toFinset]
  cases last : d.getLast? with
  | none => simp [List.getLastD_eq_getLast?, last]
  | some x =>
    have mem := other.sub x (List.mem_of_getLast? last)
    rw [List.getLastD_eq_getLast?, last]
    exact List.mem_cons_of_mem _ mem

theorem scores_asked {assum : OSet Int} (h : Asked s t) :
    scores env t assum = scores env s assum := by
  simp only [scores, asked_weight h]

section Shrink
variable {assum : OSet Int} {E : Event StepKind (EvalMaxSAT K) → Prop}

theorem wp_shortenTail {b : Nat} {c : Clause} (sound : env.Sound) (free : Free E s)
    (core : IsCore s.solver.clauses assum c) :
    Wp E (shortenTail env b c) (fun r t => Asked s t ∧
      IsCore s.solver.clauses assum r.2 ∧ ∀ p, r.1 = some p → p ∈ scores env s assum) s := by
  refine wp_loop Nat.lt_wfRel.wf (fun c _ => c.length)
    (fun c t => Asked s t ∧ IsCore s.solver.clauses assum c) ?_ _ _ ⟨asked_refl s, core⟩
  rintro c t ⟨asked, core⟩
  apply wp_bind
  apply wp_solverSolveLimited sound (free_asked free asked)
  · intro k model _ _
    exact wp_pure ⟨asked_trans asked (asked_answered _ _ _), core, by simp⟩
  · intro k failed refuted
    have asked' := asked_trans asked (asked_answered t k (.unsat failed))
    rw [asked_clauses asked] at refuted
    have shorter : IsCore s.solver.clauses assum c.dropLast := by
      refine isCore_sub core (List.dropLast_sublist c) ?_ refuted
      intro l mem
      have left := List.mem_of_mem_filter mem
      obtain ⟨inC, ne⟩ := List.mem_filter.mp left
      have ne : l ≠ c.getLastD 0 := by simpa using ne
      rcases List.eq_nil_or_concat c with empty | ⟨front, last, eq⟩
      · rw [empty] at inC; simp at inC
      · rw [eq, List.concat_eq_append] at inC ne ⊢
        rw [List.dropLast_concat]
        rw [List.getLastD_concat] at ne
        rcases List.mem_append.mp inC with mem | mem
        · exact mem
        · exact absurd (List.mem_singleton.mp mem) ne
    refine wp_ite (fun _ => wp_pure ⟨asked', shorter, ?_⟩) (fun more => ?_)
    · intro p eq
      rw [← Option.some.inj eq]
      exact Finset.mem_insert_self _ _
    apply wp_bind
    apply wp_clock (free_asked free asked')
    intro stop k'
    have asked'' := asked_trans asked'
      (asked_answered _ k' (t.answered k (.unsat failed)).solver.last)
    refine wp_ite (fun _ => ?_) (fun _ => ?_)
    · apply wp_bind_read
      refine wp_pure ⟨asked'', shorter, ?_⟩
      intro p eq
      rw [← Option.some.inj eq, asked_weight asked'']
      exact score_mem shorter shorter
    · refine wp_pure ⟨⟨asked'', shorter⟩, ?_⟩
      change c.dropLast.length < c.length
      rw [List.length_dropLast] at more ⊢
      omega
  · intro k
    exact wp_pure ⟨asked_trans asked (asked_answered _ _ _), core, by simp⟩

/-- Where only the clock decides which value is returned. -/
theorem wp_either {α : Type} {x y : α} {Q : α → EvalMaxSAT K → Prop} (free : Free E s)
    (both : ∀ t, Asked s t → Q x t ∧ Q y t) : Wp E (do
      if ← clock env then return x
      return y) Q s := by
  apply wp_bind
  apply wp_clock free
  intro stop k
  obtain ⟨left, right⟩ := both _ (asked_answered s k s.solver.last)
  exact wp_ite (fun _ => wp_pure left) (fun _ => wp_pure right)

theorem wp_dropRedundant {a : OSet Int} {b : Nat} {c : Clause} (sound : env.Sound) (free : Free E s)
    (core : IsCore s.solver.clauses a c) :
    Wp E (dropRedundant env b c) (fun c t => Asked s t ∧
      IsCore s.solver.clauses a c) s := by
  refine wp_loop Nat.lt_wfRel.wf (fun r _ => r.1)
    (fun r t => Asked s t ∧ IsCore s.solver.clauses a r.2 ∧ r.1 ≤ r.2.length) ?_ _ _
    ⟨asked_refl s, core, Nat.sub_le _ _⟩
  rintro ⟨n, d⟩ t ⟨asked, core, le⟩
  cases n with
  | zero => exact wp_pure ⟨asked, core⟩
  | succ i =>
    replace le : i + 1 ≤ d.length := le
    replace core : IsCore s.solver.clauses a d := core
    apply wp_bind
    apply wp_solverSolveLimited sound (free_asked free asked)
    · intro k model _ _
      have later := asked_trans asked (asked_answered t k (.sat model))
      refine wp_bind (wp_pure (wp_either (free_asked free later) fun u more => ?_))
      exact ⟨⟨asked_trans later more, core⟩, ⟨asked_trans later more, core, Nat.le_of_succ_le le⟩,
        Nat.lt_succ_self i⟩
    · intro k failed refuted
      rw [asked_clauses asked] at refuted
      have here : d[i]? = some (d.getD i 0) := by
        rw [List.getD_eq_getElem?_getD, List.getElem?_eq_getElem (by omega)]; rfl
      obtain ⟨smaller, length⟩ := isCore_swapRemove core here
        (fun l mem => List.mem_of_mem_filter mem) refuted
      have inside : i ≤ (swapRemove d i).length := by omega
      have later := asked_trans asked (asked_answered t k (.unsat failed))
      refine wp_bind (wp_pure (wp_either (free_asked free later) fun u more => ?_))
      exact ⟨⟨asked_trans later more, smaller⟩, ⟨asked_trans later more, smaller, inside⟩,
        Nat.lt_succ_self i⟩
    · intro k
      have later := asked_trans asked (asked_answered t k .unknown)
      refine wp_bind (wp_pure (wp_either (free_asked free later) fun u more => ?_))
      exact ⟨⟨asked_trans later more, core⟩, ⟨asked_trans later more, core, Nat.le_of_succ_le le⟩,
        Nat.lt_succ_self i⟩

theorem wp_oneMinimize {f : OSet Int} {b : Nat} {c : Clause} (sound : env.Sound) (free : Free E s)
    (core : IsCore s.solver.clauses f c) :
    Wp E (oneMinimize env c b) (fun r t => Asked s t ∧
      IsCore s.solver.clauses f r.2 ∧ r.1 ∈ scores env s f) s := by
  apply wp_bind_read
  have sorted := isCore_perm core (List.perm_insertionSort (minimizeOrder s) c)
  refine wp_ite (fun _ => wp_pure ⟨asked_refl s, sorted, Finset.mem_insert_self _ _⟩) (fun _ => ?_)
  apply wp_bind
  apply wp_mono (wp_shortenTail sound free sorted)
  rintro ⟨p, d⟩ t ⟨asked, coreD, score⟩
  cases p with
  | some p => exact wp_pure ⟨asked, coreD, score p rfl⟩
  | none =>
    apply wp_bind_read
    apply wp_bind
    apply wp_mono (wp_dropRedundant (a := f) sound (free_asked free asked)
      (by rw [asked_clauses asked]; exact coreD))
    rintro e u ⟨asked', coreE⟩
    rw [asked_clauses asked] at coreE
    refine wp_pure ⟨asked_trans asked asked', coreE, ?_⟩
    rw [asked_weight asked]
    exact score_mem coreE coreD

end Shrink

section Better
variable {assum : OSet Int}

/-- How many scores could still improve on the best one. -/
def rank (env : Env K) (s : EvalMaxSAT K) (assum : OSet Int) : Option ℚ → Nat
  | none => (scores env s assum).card + 1
  | some best => ((scores env s assum).filter (· < best)).card

theorem rank_improved {r : Search} {p : ℚ} (known : p ∈ scores env s assum)
    (improved : r.improvedBy p = true) :
    rank env s assum (some p) < rank env s assum r.bestP := by
  simp only [Search.improvedBy] at improved
  cases best : r.bestP with
  | none => exact Nat.lt_succ_of_le (Finset.card_filter_le _ _)
  | some b =>
    rw [best] at improved
    have less : p < b := by simpa using improved
    refine Finset.card_lt_card (Finset.ssubset_iff_of_subset ?_ |>.mpr ⟨p, ?_, ?_⟩)
    · intro q mem
      obtain ⟨inS, below⟩ := Finset.mem_filter.mp mem
      exact Finset.mem_filter.mpr ⟨inS, below.trans less⟩
    · exact Finset.mem_filter.mpr ⟨known, less⟩
    · simp

theorem wp_goesOn {r : Search} (sane : Sane s) :
    Wp (StepOk lo) (goesOn env r) (fun more t => Asked s t ∧ t.solver.last = s.solver.last ∧
      (more = true → r.nbSolve < max (3 * r.lastImprove) 1000)) s := by
  refine wp_ite (fun early => wp_pure ⟨asked_refl s, rfl, fun _ => by omega⟩) (fun _ => ?_)
  apply wp_bind
  apply wp_clock (free_stepOk sane)
  intro inTime k
  refine wp_pure ⟨asked_answered _ _ _, rfl, fun more => ?_⟩
  have : r.nbSolve < 1000 := by simp at more; exact more.2
  omega

theorem wp_getConflict (refuted : Refuted s assum) :
    Wp (StepOk lo) (getConflict assum) (fun c t => t = s ∧ IsCore s.solver.clauses assum c) s := by
  apply wp_bind_read
  exact wp_pure ⟨rfl, isCore_getConflict refuted⟩

theorem wp_shuffled {lim : Limit} {xs : List Int} (sound : env.Sound) (sane : Sane s)
    (perm : xs.Perm assum.elems) (nonzero : ∀ l ∈ assum, l ≠ 0)
    (refuted : Inconsistent s.solver.clauses assum.elems) :
    Wp (StepOk lo) (solverSolveLimited env xs lim 0) (fun r t => Asked s t ∧
      (r ≠ none → Refuted t assum)) s := by
  have all : xs.filter (· ≠ 0) = xs := by
    apply List.filter_eq_self.mpr
    intro l mem
    simpa using nonzero l (perm.subset mem)
  apply wp_solverSolveLimited sound (free_stepOk sane)
  · intro k model models true_all
    rw [all] at true_all
    exact absurd (fun l mem => true_all l (perm.symm.subset mem)) (refuted _ models)
  · intro k failed core
    rw [all] at core
    refine ⟨asked_answered _ _ _, fun _ => ⟨failed, rfl, inconsistent_sub ?_ core⟩⟩
    intro l mem
    obtain ⟨inXs, inFailed⟩ := List.mem_filter.mp mem
    exact List.mem_filter.mpr ⟨perm.subset inXs, inFailed⟩
  · intro k
    exact ⟨asked_answered _ _ _, fun h => absurd rfl h⟩

theorem wp_nextSolve {a : OSet Int} {r : Search} {P : Search ⊕ Clause → EvalMaxSAT K → Prop}
    (sound : env.Sound) (sane : Sane s) (nonzero : ∀ l ∈ a, l ≠ 0)
    (refuted : Inconsistent s.solver.clauses a.elems)
    (post : ∀ t, Asked s t → P (.inr r.conflict) t ∧ (Refuted t a → P (.inl r) t)) :
    Wp (StepOk lo) (do
      if ← clock env then return Sum.inr r.conflict
      let vAssum ← withCore fun k => env.shuffle k a.elems
      match ← solverSolveLimited env vAssum .time 0 with
      | none => return Sum.inr r.conflict
      | _ => return Sum.inl r) P s := by
  apply wp_bind
  apply wp_clock (free_stepOk sane)
  intro stop k₁
  have asked₁ := asked_answered s k₁ s.solver.last
  refine wp_ite (fun _ => wp_pure (post _ asked₁).1) (fun _ => ?_)
  apply wp_bind
  apply wp_withCore (free_stepOk (asked_sane asked₁ sane))
  intro k₂
  have asked₂ := asked_trans asked₁ (asked_answered _ k₂ (s.answered k₁ s.solver.last).solver.last)
  apply wp_bind
  apply wp_mono (wp_shuffled sound (asked_sane asked₂ sane) (sound.permutes _ _) nonzero refuted)
  rintro result t ⟨asked₃, again⟩
  replace asked₃ := asked_trans asked₂ asked₃
  cases result with
  | none => exact wp_pure (post t asked₃).1
  | some b => exact wp_pure ((post t asked₃).2 (again (by simp)))

theorem wp_betterCore {c : Clause} (sound : env.Sound) (sane : Sane s) (refuted : Refuted s assum)
    (nonzero : ∀ l ∈ assum, l ≠ 0) (core : IsCore s.solver.clauses assum c) :
    Wp (StepOk lo) (betterCore env assum c) (fun d t => Asked s t ∧
      IsCore s.solver.clauses assum d) s := by
  have whole : Inconsistent s.solver.clauses assum.elems := by
    obtain ⟨failed, _, inconsistent⟩ := refuted
    exact inconsistent_sub (fun l mem => List.mem_of_mem_filter mem) inconsistent
  refine wp_loop lex_wf
    (fun r _ => (rank env s assum r.bestP, max (3 * r.lastImprove) 1000 - r.nbSolve))
    (fun r t => Asked s t ∧ Refuted t assum ∧ IsCore s.solver.clauses assum r.conflict) ?_ _ _
    ⟨asked_refl s, refuted, core⟩
  rintro r t ⟨asked, refutedT, coreR⟩
  apply wp_bind
  apply wp_mono (wp_goesOn (asked_sane asked sane))
  rintro more t₁ ⟨asked₁, last, enough⟩
  have refuted₁ : Refuted t₁ assum := by
    obtain ⟨failed, eq, inconsistent⟩ := refutedT
    exact ⟨failed, last.trans eq, by rw [asked_clauses asked₁]; exact inconsistent⟩
  replace asked₁ := asked_trans asked asked₁
  refine wp_ite (fun _ => wp_pure ⟨asked₁, coreR⟩) (fun goes => ?_)
  have below := enough (by simpa using goes)
  apply wp_bind
  apply wp_mono (wp_getConflict refuted₁)
  rintro tmp _ ⟨rfl, coreTmp⟩
  apply wp_bind
  apply wp_mono (wp_oneMinimize sound (free_stepOk (asked_sane asked₁ sane)) coreTmp)
  rintro ⟨p, d⟩ t₂ ⟨asked₂, coreD, score⟩
  rw [asked_clauses asked₁] at coreD
  rw [scores_asked asked₁] at score
  replace asked₂ := asked_trans asked₁ asked₂
  replace coreD : IsCore s.solver.clauses assum d := coreD
  have refuted₂ : Inconsistent t₂.solver.clauses assum.elems := by
    rw [asked_clauses asked₂]; exact whole
  by_cases improved : ({ r with nbSolve := r.nbSolve + 1 } : Search).improvedBy p = true
  · have better := rank_improved score improved
    refine wp_ite (fun _ => wp_pure ⟨asked₂, ?_⟩) (fun _ => ?_)
    · rw [if_pos improved]; exact coreD
    · apply wp_nextSolve (a := assum) sound (asked_sane asked₂ sane) nonzero refuted₂
      intro v same
      rw [if_pos improved, if_pos improved]
      have asked₃ := asked_trans asked₂ same
      exact ⟨⟨asked₃, coreD⟩, fun again => ⟨⟨asked₃, again, coreD⟩, Prod.Lex.left _ _ better⟩⟩
  · refine wp_ite (fun both => absurd both.1 improved) (fun _ => ?_)
    apply wp_nextSolve (a := assum) sound (asked_sane asked₂ sane) nonzero refuted₂
    intro v same
    rw [if_neg improved, if_neg improved]
    have asked₃ := asked_trans asked₂ same
    refine ⟨⟨asked₃, coreR⟩, fun again => ⟨⟨asked₃, again, coreR⟩, ?_⟩⟩
    apply lex_of_le (Nat.le_refl _)
    change max (3 * r.lastImprove) 1000 - (r.nbSolve + 1) < _
    omega

theorem wp_findCore {c : Clause} (sound : env.Sound) (sane : Sane s) (refuted : Refuted s assum)
    (nonzero : ∀ l ∈ assum, l ≠ 0) (core : IsCore s.solver.clauses assum c) :
    Wp (StepOk lo) (findCore env assum c) (fun d t => Asked s t ∧
      IsCore s.solver.clauses assum d) s := by
  have minimize : ∀ d t, Asked s t → IsCore s.solver.clauses assum d →
      Wp (StepOk lo) (do
          if 1 < d.length then
            let r ← oneMinimize env d 1000
            return r.2
          else return d) (fun d t => Asked s t ∧ IsCore s.solver.clauses assum d) t := by
    intro d t asked coreD
    refine wp_ite (fun _ => ?_) (fun _ => wp_pure ⟨asked, coreD⟩)
    apply wp_bind
    apply wp_mono (wp_oneMinimize (f := assum) sound (free_stepOk (asked_sane asked sane))
      (by rw [asked_clauses asked]; exact coreD))
    rintro ⟨p, e⟩ u ⟨asked', coreE, _⟩
    rw [asked_clauses asked] at coreE
    exact wp_pure ⟨asked_trans asked asked', coreE⟩
  apply wp_bind_read
  refine wp_ite (fun _ => ?_) (fun _ => ?_)
  · apply wp_bind
    apply wp_mono (wp_betterCore sound sane refuted nonzero core)
    rintro d t ⟨asked, coreD⟩
    exact minimize d t asked coreD
  · exact wp_bind (wp_pure (minimize c s (asked_refl s) core))

end Better
end EvalMaxSat
