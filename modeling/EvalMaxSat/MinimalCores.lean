import EvalMaxSat.Minimization
import EvalMaxSat.ReferenceBackEnd

/-!
What core minimisation leaves when nothing disturbs it: a core of which every literal is
needed. A literal found needed stays so, since the core only loses literals.
-/
namespace EvalMaxSat
open Literals OrderedContainers EvalMaxSAT StepProgram

variable {K : Type} {env : Env K} {f : Cnf} {s t : EvalMaxSAT K} {ls d : Clause}

/-- A look at the clock that finds the time over. -/
def Struck (env : Env K) (e : Event StepKind (EvalMaxSAT K)) : Prop :=
  (env.clock e.before.solver.core).1 = true ∧
    e.after = e.before.answered (env.clock e.before.solver.core).2 e.before.solver.last

/-- A step after which no call has given up, and which is no end of the time. -/
def Undisturbed (env : Env K) (e : Event StepKind (EvalMaxSAT K)) : Prop :=
  e.after.solver.last ≠ .unknown ∧ ¬ Struck env e

section Calls
variable {as : List Int} {lim : Limit} {except : Int} {Q : Option Bool → EvalMaxSAT K → Prop}

theorem wlp_query {P : Answer → EvalMaxSAT K → Prop}
    (post : ∀ core, (env.answer s.solver.core s.solver.clauses as lim).1 ≠ .unknown →
      P (env.answer s.solver.core s.solver.clauses as lim).1
        (s.answered core (env.answer s.solver.core s.solver.clauses as lim).1)) :
    Wlp (Undisturbed env) (query env as lim) P s :=
  wlp_act fun calm => post _ calm.1

theorem wlp_solverSolveLimited (sound : env.Sound)
    (yes : ∀ core model, ¬ Inconsistent s.solver.clauses (as.filter (· ≠ except)) →
      Q (some true) (s.answered core (.sat model)))
    (no : ∀ core failed, Inconsistent s.solver.clauses (as.filter (· ≠ except)) →
      Q (some false) (s.answered core (.unsat failed))) :
    Wlp (Undisturbed env) (solverSolveLimited env as lim except) Q s := by
  apply wlp_bind
  apply wlp_query
  intro core known
  cases answer : (env.answer s.solver.core s.solver.clauses (as.filter (· ≠ except)) lim).1 with
  | sat model =>
    obtain ⟨models, all⟩ := sound.sat _ _ _ _ _ answer
    exact wlp_pure (yes core model (fun refuted => refuted _ models all))
  | unsat failed =>
    have refuted := sound.unsat _ _ _ _ _ answer
    exact wlp_pure (no core failed
      (inconsistent_sub (fun l mem => List.mem_of_mem_filter mem) refuted))
  | unknown => exact absurd answer known

theorem wlp_clock {P : Bool → EvalMaxSAT K → Prop}
    (post : ∀ core, P false (s.answered core s.solver.last)) :
    Wlp (Undisturbed env) (clock env) P s := by
  apply wlp_act
  intro calm
  change P (env.clock s.solver.core).1 (s.answered (env.clock s.solver.core).2 s.solver.last)
  cases strike : (env.clock s.solver.core).1 with
  | true => exact absurd ⟨strike, rfl⟩ calm.2
  | false => exact post _

/-- Where only the clock decides which value is returned, the later one is. -/
theorem wlp_either {α : Type} {x y : α} {P : α → EvalMaxSAT K → Prop}
    (post : ∀ core, P y (s.answered core s.solver.last)) :
    Wlp (Undisturbed env) (do
      if ← clock env then return x
      return y) P s := by
  apply wlp_bind
  apply wlp_clock
  intro core
  exact wlp_ite (fun struck => absurd struck Bool.false_ne_true) (fun _ => wlp_pure (post core))

end Calls

section Needs

def Needed (f : Cnf) (ls : Clause) (x : Int) : Prop := ¬ Inconsistent f (ls.filter (· ≠ x))

theorem needed_sub {x : Int} (needed : Needed f ls x) (sub : d ⊆ ls) : Needed f d x := by
  intro refuted
  apply needed
  apply inconsistent_sub _ refuted
  intro l mem
  obtain ⟨inD, ne⟩ := List.mem_filter.mp mem
  exact List.mem_filter.mpr ⟨sub inD, ne⟩

theorem needed_erase {x : Int} (needed : Needed f ls x) (nodup : ls.Nodup) :
    ¬ Inconsistent f (ls.erase x) := by
  rw [nodup.erase_eq_filter]
  have same : ls.filter (fun y => y != x) = ls.filter (fun y => decide (y ≠ x)) := by
    apply List.filter_congr
    intro y _
    by_cases eq : y = x <;> simp [eq]
  rw [same]
  exact needed

def NeededFrom (f : Cnf) (i : Nat) (ls : Clause) : Prop := ∀ j x, i ≤ j → ls[j]? = some x → Needed f ls x

theorem getD_getElem? {i : Nat} (inside : i < ls.length) : ls[i]? = some (ls.getD i 0) := by
  rw [List.getD_eq_getElem?_getD, List.getElem?_eq_getElem inside]
  rfl

theorem neededFrom_last (needed : Needed f ls (ls.getLastD 0)) : NeededFrom f (ls.length - 1) ls := by
  intro j x from_last here
  have inside := (List.getElem?_eq_some_iff.mp here).1
  have last : j = ls.length - 1 := by omega
  rw [last, ← List.getLast?_eq_getElem?] at here
  rw [List.getLastD_eq_getLast?, here] at needed
  exact needed

theorem neededFrom_kept {i : Nat} (rest : NeededFrom f (i + 1) ls) (needed : Needed f ls (ls.getD i 0)) :
    NeededFrom f i ls := by
  intro j x from_i here
  rcases Nat.eq_or_lt_of_le from_i with same | later
  · rw [← same, getD_getElem? (by have := (List.getElem?_eq_some_iff.mp here).1; omega)] at here
    rw [← Option.some.inj here]
    exact needed
  · exact rest j x later here

theorem swapRemove_here {i : Nat} {x : Int} (inside : i + 1 < ls.length)
    (here : (swapRemove ls i)[i]? = some x) : ls[ls.length - 1]? = some x := by
  rw [← List.getLast?_eq_getElem?]
  unfold swapRemove at here
  cases last : ls.getLast? with
  | none =>
    rw [List.getLast?_eq_none_iff] at last
    rw [last] at inside
    simp at inside
  | some y =>
    rw [last] at here
    simp only at here
    rw [List.getElem?_dropLast, List.length_set, if_pos (by omega),
      List.getElem?_set_self (by omega)] at here
    exact here

theorem swapRemove_sub {i : Nat} {x : Int} (here : ls[i]? = some x) :
    swapRemove ls i ⊆ ls ∧ (swapRemove ls i).length + 1 = ls.length ∧ (ls.Nodup → (swapRemove ls i).Nodup) := by
  obtain ⟨pre, post, shape, perm⟩ := swapRemove_perm here
  have sub : (pre ++ post).Sublist ls := by
    rw [shape]
    exact List.Sublist.append_left (List.sublist_cons_self x post) pre
  refine ⟨fun l mem => sub.subset (perm.subset mem), ?_, fun nodup => perm.symm.nodup (sub.nodup nodup)⟩
  rw [perm.length_eq, shape]
  simp only [List.length_append, List.length_cons]
  omega

theorem neededFrom_dropped {i : Nat} (rest : NeededFrom f (i + 1) ls) (inside : i + 1 < ls.length) :
    NeededFrom f i (swapRemove ls i) := by
  intro j x from_i here
  have sub := (swapRemove_sub (getD_getElem? (by omega : i < ls.length))).1
  rcases Nat.eq_or_lt_of_le from_i with same | later
  · rw [← same] at here
    exact needed_sub (rest (ls.length - 1) x (by omega) (swapRemove_here inside here)) sub
  · exact needed_sub (rest j x later (swapRemove_get here (by omega))) sub

end Needs

section Shrink
variable {b : Nat}

theorem wlp_shortenTail (sound : env.Sound) (nonempty : ls ≠ []) :
    Wlp (Undisturbed env) (shortenTail env b ls) (fun r t => Asked s t ∧
      ((r.1 ≠ none ∧ r.2 = []) ∨
        (r.1 = none ∧ r.2 ≠ [] ∧ Needed s.solver.clauses r.2 (r.2.getLastD 0)))) s := by
  refine wlp_loop (fun ls t => Asked s t ∧ ls ≠ []) ?_ ⟨asked_refl s, nonempty⟩
  rintro ls t ⟨asked, nonempty⟩
  apply wlp_bind
  apply wlp_solverSolveLimited sound
  · intro core model needed
    rw [asked_clauses asked] at needed
    exact wlp_pure ⟨asked_trans asked (asked_answered _ _ _), Or.inr ⟨rfl, nonempty, needed⟩⟩
  · intro core failed _
    have asked' := asked_trans asked (asked_answered t core (.unsat failed))
    refine wlp_ite (fun emptied => wlp_pure ⟨asked', Or.inl ⟨by simp, ?_⟩⟩) (fun more => ?_)
    · exact List.eq_nil_of_length_eq_zero emptied
    apply wlp_bind
    apply wlp_clock
    intro core'
    refine wlp_ite (fun struck => absurd struck Bool.false_ne_true) (fun _ => wlp_pure ⟨?_, ?_⟩)
    · exact asked_trans asked' (asked_answered _ _ _)
    · intro empty
      exact more (by rw [empty]; rfl)

theorem wlp_dropRedundant (sound : env.Sound) (nonempty : ls ≠ [])
    (needed : Needed s.solver.clauses ls (ls.getLastD 0)) :
    Wlp (Undisturbed env) (dropRedundant env b ls) (fun d _ => NeededFrom s.solver.clauses 0 d) s := by
  have several := List.length_pos_iff.mpr nonempty
  refine wlp_loop (fun r t => Asked s t ∧ r.1 < r.2.length ∧ NeededFrom s.solver.clauses r.1 r.2) ?_
    ⟨asked_refl s, Nat.sub_lt several Nat.one_pos, neededFrom_last needed⟩
  rintro ⟨n, d⟩ t ⟨asked, inside, rest⟩
  cases n with
  | zero => exact wlp_pure rest
  | succ i =>
    replace inside : i + 1 < d.length := inside
    replace rest : NeededFrom s.solver.clauses (i + 1) d := rest
    apply wlp_bind
    apply wlp_solverSolveLimited sound
    · intro core model needed
      rw [asked_clauses asked] at needed
      have later := asked_trans asked (asked_answered t core (.sat model))
      refine wlp_bind (wlp_pure (wlp_either fun core' => ?_))
      exact ⟨asked_trans later (asked_answered _ _ _), Nat.lt_of_succ_lt inside,
        neededFrom_kept rest needed⟩
    · intro core failed _
      have later := asked_trans asked (asked_answered t core (.unsat failed))
      have length := (swapRemove_sub (getD_getElem? (by omega : i < d.length))).2.1
      refine wlp_bind (wlp_pure (wlp_either fun core' => ?_))
      exact ⟨asked_trans later (asked_answered _ _ _), by simp only; omega,
        neededFrom_dropped rest inside⟩

theorem wlp_oneMinimize (sound : env.Sound) : Wlp (Undisturbed env) (oneMinimize env ls b)
    (fun r _ => NeededFrom s.solver.clauses 0 r.2) s := by
  have nothing : NeededFrom s.solver.clauses 0 [] := by
    intro j x _ here
    simp at here
  apply wlp_bind_read
  refine wlp_ite (fun empty => wlp_pure ?_) (fun several => ?_)
  · rw [List.eq_nil_of_length_eq_zero empty]
    exact nothing
  have nonempty : ls.insertionSort (minimizeOrder s) ≠ [] := by
    intro empty
    apply several
    rw [empty]
    rfl
  apply wlp_bind
  apply wlp_mono (wlp_shortenTail sound nonempty)
  rintro ⟨p, d⟩ t ⟨asked, ⟨returned, emptied⟩ | ⟨goes, nonempty, needed⟩⟩
  · cases p with
    | none => exact absurd rfl returned
    | some p =>
      apply wlp_pure
      simp only at emptied
      rw [emptied]
      exact nothing
  · simp only at goes
    subst goes
    apply wlp_bind_read
    apply wlp_bind
    rw [← asked_clauses asked] at needed
    apply wlp_mono (wlp_dropRedundant sound nonempty needed)
    rintro e u all
    rw [asked_clauses asked] at all
    exact wlp_pure all

end Shrink

def asAssum (ls : Clause) : OSet Int := ls.foldl (fun a l => a.insert l) OSet.empty

theorem mem_asAssum {l : Int} : l ∈ asAssum ls ↔ l ∈ ls := by
  rw [asAssum, OSet.mem_foldl_insert]
  constructor
  · rintro (absent | mem)
    · exact absurd absent OSet.not_mem_empty
    · exact mem
  · exact Or.inr

/-- Core minimisation ends and leaves a core among the given literals, and where no call gives
up and the time does not run out, none of its literals can be spared. -/
theorem oneMinimize_minimal {b : Nat} (sound : env.Sound) (distinct : ls.Nodup)
    (core : Inconsistent s.solver.clauses ls) :
    ∃ tr p r t, (oneMinimize env ls b).Ends s tr (.done (p, r)) t ∧ r.Subperm ls ∧ r.Nodup ∧
      Inconsistent s.solver.clauses r ∧ (r = [] → Inconsistent s.solver.clauses []) ∧
      ((∀ e ∈ tr, Undisturbed env e) → ∀ l ∈ r, ¬ Inconsistent s.solver.clauses (r.erase l)) := by
  have isCore : IsCore s.solver.clauses (asAssum ls) ls :=
    ⟨distinct, fun l mem => mem_asAssum.mpr mem, core⟩
  obtain ⟨tr, ⟨p, r⟩, t, ends, _, _, left, _⟩ := wp_oneMinimize (b := b) sound (free_every s) isCore
  have sub : r.Subperm ls := left.nodup.subperm fun l mem => mem_asAssum.mp (left.sub l mem)
  refine ⟨tr, p, r, t, ends, sub, left.nodup, left.refuted, ?_, ?_⟩
  · intro empty
    have refuted := left.refuted
    rwa [show r = [] from empty] at refuted
  · intro calm l mem
    have needed := (wlp_oneMinimize sound).post tr (p, r) t ends calm
    obtain ⟨i, here⟩ := List.mem_iff_getElem?.mp mem
    exact needed_erase (needed i l (Nat.zero_le i) here) left.nodup

def excludedPair : EvalMaxSAT Unit :=
  { fresh () with
    solver := { (fresh ()).solver with nVar := 3, clauses := [[-1, -2]] }
    poids := ⟨[0, 2, 3, 1]⟩ }

theorem oneMinimize_minimal_pair : ∃ tr p r t,
    (oneMinimize patientBackEnd [1, 2, 3] 10).Ends excludedPair tr (.done (p, r)) t ∧
      r.Subperm [1, 2, 3] ∧ Inconsistent [[-1, -2]] r ∧ ∀ l ∈ r, ¬ Inconsistent [[-1, -2]] (r.erase l) := by
  have refuted : Inconsistent excludedPair.solver.clauses [1, 2, 3] :=
    search_none (by decide +kernel)
  obtain ⟨tr, p, r, t, ends, sub, _, core, _, minimal⟩ :=
    oneMinimize_minimal (b := 10) patient_sound (by decide) refuted
  have test : endTest (oneMinimize patientBackEnd [1, 2, 3] 10) 20 (fun tr _ _ => tr.all fun e =>
      decide (e.after.solver.last ≠ .unknown)) excludedPair = true := by decide +kernel
  obtain ⟨_, _, _, ends', answered⟩ := ends_of_endTest test
  obtain ⟨rfl, _⟩ := Prog.ends_unique ends ends'
  refine ⟨_, p, r, t, ends, sub, core, minimal ?_⟩
  intro e mem
  refine ⟨of_decide_eq_true (List.all_eq_true.mp answered e mem), ?_⟩
  rintro ⟨strike, _⟩
  exact Bool.false_ne_true strike

end EvalMaxSat
