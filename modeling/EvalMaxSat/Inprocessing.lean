import EvalMaxSat.RestoredClauses

/-!
Solving step after step with clauses that come and go. However additions, assumptions,
simplifications and restorations follow each other, a solution of the clauses that are left is
repaired to one of all the clauses that were ever added, and it keeps the assumptions.
-/
namespace EvalMaxSat
open Literals ModelReconstruction

namespace Cadical
open External

/-- What a simplification owes for a clause that it takes away: the clause is redundant, in that the
witness literals repair what it loses, and no assumption is given up for it. -/
structure Weakens (e : External) (g : Cnf) (ws : List Int) (c : Clause) : Prop where
  left : ∀ m, Models m e.clauses ↔ Models m g ∧ Holds m c
  repairs : ∀ m, Models m g → ¬ Holds m c → Models (setAll ws m) g ∧ Holds (setAll ws m) c
  literals : Within e.max_var (ws ++ c)
  frozen : ∀ a ∈ e.assumptions, -a ∉ ws

/-- The states of the solver, with all the clauses that were added so far. Clauses are taken away
only in a solve, which begins with the restoration. -/
inductive Reaches : Cnf → External → Prop
  | new : Reaches [] .new
  | add {f : Cnf} {e : External} {c : Clause} :
      Reaches f e → (∀ l ∈ c, l ≠ 0) → Reaches (f ++ [c]) (e.addClause c)
  | assume {f : Cnf} {e : External} {a : Int} : Reaches f e → a ≠ 0 → Reaches f (e.assume a)
  | reset_assumptions {f : Cnf} {e : External} : Reaches f e → Reaches f e.reset_assumptions
  | restore {f : Cnf} {e e' : External} {opts : RestoreOptions} {fixed : Cnf → Int → Bool} :
      Reaches f e → FixedHolds fixed → e.internal_restore opts fixed = some e' → Reaches f e'
  | simplify {f g : Cnf} {e : External} :
      Reaches f e → (∀ m, Models m g ↔ Models m e.clauses) → Reaches f { e with clauses := g }
  | weaken {f g : Cnf} {e : External} {ws : List Int} {c : Clause} :
      Reaches f e → e.tainted = [] → Weakens e g ws c →
      Reaches f (push_entry ws c { e with clauses := g })
  | extend {f : Cnf} {e e' : External} {value : Nat → Option Bool} :
      Reaches f e → e.extend value = some e' → Reaches f e'

/-- The clauses are those of `base` and the `pending` ones, which came after the last restoration.
The repairs on the stack keep `base`; one that could hurt a pending clause or an assumption has a
tainted literal. -/
structure Reconstructs (f : Cnf) (e : External) (es : List Weakened) (base : Assignment → Prop)
    (pending : Cnf) : Prop where
  text : e.extension = stackText es
  literals : ∀ d ∈ es, Within e.max_var (d.1 ++ d.2)
  marks : ∀ d ∈ es, ∀ l ∈ d.1, marked e.witness l = true
  split : ∀ m, Models m e.clauses ↔ base m ∧ Models m pending
  sound : Sound base (es.map removal)
  whole : ∀ m, Models m f ↔ Models m e.clauses ∧ ∀ d ∈ es, Holds m d.2
  nonzero : ∀ c ∈ pending, ∀ l ∈ c, l ≠ 0
  tainted : ∀ c ∈ pending, ∀ l ∈ c, ∀ d ∈ es, -l ∈ d.1 → marked e.tainted l = true
  assumed : ∀ a ∈ e.assumptions, ∀ d ∈ es, -a ∈ d.1 → marked e.tainted a = true
  covers : ∀ c ∈ f, Within e.max_var c
  asked : Within e.max_var e.assumptions

section Steps
variable {f g pending : Cnf} {e e' : External} {es : List Weakened} {base : Assignment → Prop}
  {d : Weakened} {c : Clause} {a : Int} {ws : List Int}
  {fixed : Cnf → Int → Bool} {m : Assignment}

theorem reconstructs_new : Reconstructs [] .new [] (fun _ => True) [] := by
  constructor <;> simp [External.new, stackText, Models, Sound, Within]

theorem pending_kept (inv : Reconstructs f e es base pending) (entry : d ∈ es)
    (clean : Untainted e d) (models : Models m pending) : Models (setAll d.1 m) pending := by
  intro c mem
  refine holds_setAll (inv.nonzero c mem) ?_ (models c mem)
  intro l literal witnessed
  exact untainted_apart clean (inv.tainted c mem l literal d entry witnessed) witnessed

theorem untainted_clean (clean : e.tainted = []) : Untainted e d := by
  intro l _
  rw [clean]
  exact unmarked

theorem reconstructs_settle (inv : Reconstructs f e es base pending) (clean : e.tainted = []) :
    Reconstructs f e es (fun m => Models m e.clauses) [] := by
  have keeps : ∀ r ∈ es.map removal, ∀ m, Models m pending → Models (r.repair m) pending := by
    intro r mem m models
    obtain ⟨d, entry, same⟩ := List.mem_map.mp mem
    rw [← same]
    exact pending_kept inv entry (untainted_clean clean) models
  have sound := sound_congr (fun m => (inv.split m).symm) (sound_and keeps inv.sound)
  exact { inv with
    split := by simp [Models]
    sound := sound
    nonzero := by simp
    tainted := by simp }

theorem reconstructs_simplify (inv : Reconstructs f e es base pending)
    (same : ∀ m, Models m g ↔ Models m e.clauses) :
    Reconstructs f { e with clauses := g } es base pending :=
  { inv with
    split := fun m => (same m).trans (inv.split m)
    whole := fun m => (inv.whole m).trans (and_congr_left fun _ => (same m).symm) }

theorem reconstructs_values (inv : Reconstructs f e es base pending) (vals : List Bool)
    (extended : Bool) :
    Reconstructs f { e with vals := vals, extended := extended } es base pending := { inv with }

theorem reconstructs_reset (inv : Reconstructs f e es base pending) :
    Reconstructs f e.reset_assumptions es base pending :=
  { inv with
    assumed := by simp [reset_assumptions]
    asked := by simp [reset_assumptions, Within] }

theorem reconstructs_internalized (inv : Reconstructs f e es base pending)
    (inside : Internalized ws e e') : Reconstructs f e' es base pending where
  text := inside.extension.trans inv.text
  literals := fun d mem => within_mono inside.room (inv.literals d mem)
  marks := fun d mem l witnessed => by
    rw [inside.witness]
    exact inv.marks d mem l witnessed
  split := fun m => by
    rw [inside.clauses]
    exact inv.split m
  sound := inv.sound
  whole := fun m => by
    rw [inside.clauses]
    exact inv.whole m
  nonzero := inv.nonzero
  tainted := fun c mem l literal d entry witnessed =>
    inside.tainted l (inv.nonzero c mem l literal) (inv.tainted c mem l literal d entry witnessed)
  assumed := by
    rw [inside.assumptions]
    intro a mem d entry witnessed
    exact inside.tainted a (inv.asked a mem).1 (inv.assumed a mem d entry witnessed)
  covers := fun c mem => within_mono inside.room (inv.covers c mem)
  asked := by
    rw [inside.assumptions]
    exact within_mono inside.room inv.asked

theorem reconstructs_add (inv : Reconstructs f e es base pending) (nonzero : ∀ l ∈ c, l ≠ 0) :
    Reconstructs (f ++ [c]) (e.addClause c) es base (pending ++ [c]) := by
  have before := reconstructs_values inv e.vals false
  have inside := internalized_fold nonzero { e with extended := false }
  have inv := reconstructs_internalized before inside
  unfold addClause
  generalize c.foldl (fun e elit => e.internalize elit) { e with extended := false } = e₁ at *
  refine { inv with split := ?_, whole := ?_, nonzero := ?_, tainted := ?_, covers := ?_ }
  · intro m
    have old := inv.split m
    rw [models_append, models_append, models_singleton]
    tauto
  · intro m
    have old := inv.whole m
    rw [models_append, models_append, models_singleton]
    tauto
  · exact List.forall_mem_append.mpr ⟨inv.nonzero, by simpa using nonzero⟩
  · refine List.forall_mem_append.mpr ⟨inv.tainted, ?_⟩
    intro k mem l literal d entry witnessed
    rw [List.mem_singleton.mp mem] at literal
    have known := inv.marks d entry (-l) witnessed
    rw [inside.witness] at known
    exact inside.taints l literal known
  · refine List.forall_mem_append.mpr ⟨inv.covers, ?_⟩
    intro k mem l literal
    rw [List.mem_singleton.mp mem] at literal
    exact ⟨nonzero l literal, inside.covers l literal⟩

theorem reconstructs_assume (inv : Reconstructs f e es base pending) (nonzero : a ≠ 0) :
    Reconstructs f (e.assume a) es base pending := by
  have inside := internalized_one nonzero
    { e with extended := false, assumptions := e.assumptions ++ [a] }
  unfold External.assume
  generalize internalize a { e with extended := false, assumptions := e.assumptions ++ [a] } = e₁
    at *
  have dropped : Internalized [a] e { e₁ with assumptions := e.assumptions } :=
    ⟨inside.clauses, inside.witness, inside.extension, rfl, inside.room, inside.covers,
      inside.tainted, inside.taints⟩
  have inv := reconstructs_internalized inv dropped
  refine { inv with assumed := ?_, asked := ?_ }
  · rw [inside.assumptions]
    refine List.forall_mem_append.mpr ⟨inv.assumed, ?_⟩
    intro b mem d entry witnessed
    rw [List.mem_singleton.mp mem] at witnessed ⊢
    have known := inv.marks d entry (-a) witnessed
    exact inside.taints a List.mem_cons_self (inside.witness ▸ known)
  · unfold Within
    rw [inside.assumptions]
    refine List.forall_mem_append.mpr ⟨inv.asked, ?_⟩
    intro b mem
    rw [List.mem_singleton.mp mem]
    exact ⟨nonzero, inside.covers a List.mem_cons_self⟩

theorem push_literals (c : Clause) (e : External) :
    c.foldl push_clause_literal e = { e with extension := e.extension ++ c } := by
  induction c generalizing e with
  | nil => simp
  | cons l c ih =>
    rw [List.foldl_cons, ih]
    simp [push_clause_literal]

theorem push_witnesses (nonzero : ∀ l ∈ ws, l ≠ 0) (e : External) :
    ∃ map, ws.foldl push_witness_literal e =
        { e with extension := e.extension ++ ws, witness := map } ∧
      ∀ l, l ≠ 0 → (marked map l = true ↔ l ∈ ws ∨ marked e.witness l = true) := by
  induction ws generalizing e with
  | nil => exact ⟨e.witness, by simp, by simp⟩
  | cons k ws ih =>
    obtain ⟨map, result, marks⟩ :=
      ih (fun l mem => nonzero l (List.mem_cons_of_mem k mem)) (push_witness_literal e k)
    refine ⟨map, ?_, ?_⟩
    · rw [List.foldl_cons, result]
      simp [push_witness_literal]
    · intro l apart
      have first : marked (push_witness_literal e k).witness l = true ↔
          l = k ∨ marked e.witness l = true := by
        unfold push_witness_literal
        by_cases known : marked e.witness k = true
        · simp only [known, if_true]
          constructor
          · exact Or.inr
          · rintro (same | old)
            · rw [same]
              exact known
            · exact old
        · simp only [known, Bool.false_eq_true, if_false]
          exact marked_mark (nonzero k List.mem_cons_self) apart
      rw [marks l apart, first, List.mem_cons]
      tauto

theorem push_entry_text (nonzero : ∀ l ∈ ws, l ≠ 0) (e : External) :
    ∃ map, push_entry ws c e =
        { e with extension := e.extension ++ 0 :: (ws ++ 0 :: c), witness := map } ∧
      ∀ l, l ≠ 0 → (marked map l = true ↔ l ∈ ws ∨ marked e.witness l = true) := by
  obtain ⟨map, result, marks⟩ := push_witnesses nonzero e.push_zero
  refine ⟨map, ?_, marks⟩
  unfold push_entry push_clause
  rw [result, push_literals]
  simp [push_zero]

/-- A clause is taken away when nothing is tainted: its repair need not keep more than the rest. -/
theorem reconstructs_weaken (inv : Reconstructs f e es base pending) (clean : e.tainted = [])
    (weakens : Weakens e g ws c) :
    Reconstructs f (push_entry ws c { e with clauses := g }) (es ++ [(ws, c)])
      (fun m => Models m g) [] := by
  have inv := reconstructs_settle inv clean
  obtain ⟨wsWithin, _⟩ := List.forall_mem_append.mp weakens.literals
  obtain ⟨map, result, marks⟩ := push_entry_text (c := c) (fun l mem => (wsWithin l mem).1)
    { e with clauses := g }
  rw [result]
  refine ⟨?_, ?_, ?_, by simp [Models], ?_, ?_, by simp, by simp, ?_, inv.covers, inv.asked⟩
  · rw [stackText_append, ← inv.text]
  · exact List.forall_mem_append.mpr ⟨inv.literals, by simpa using weakens.literals⟩
  · refine List.forall_mem_append.mpr ⟨?_, ?_⟩
    · intro d entry l witnessed
      have nonzero := (inv.literals d entry l (List.mem_append_left _ witnessed)).1
      exact (marks l nonzero).mpr (Or.inr (inv.marks d entry l witnessed))
    · intro d entry l witnessed
      rw [List.mem_singleton.mp entry] at witnessed
      exact (marks l (wsWithin l witnessed).1).mpr (Or.inl witnessed)
  · rw [List.map_append]
    exact sound_push inv.sound weakens.left weakens.repairs
  · intro m
    have old := inv.whole m
    have left := weakens.left m
    rw [List.forall_mem_append, List.forall_mem_singleton]
    tauto
  · intro a mem
    refine List.forall_mem_append.mpr ⟨inv.assumed a mem, ?_⟩
    intro d entry witnessed
    rw [List.mem_singleton.mp entry] at witnessed
    exact absurd witnessed (weakens.frozen a mem)

theorem reconstructs_restorable (inv : Reconstructs f e es base pending) :
    Restorable base (fun m => Models m pending) es e where
  literals := fun d entry l literal => (inv.literals d entry l literal).1
  marks := inv.marks
  split := inv.split
  quiet := fun _ entry clean _ models => pending_kept inv entry clean models

theorem reconstructs_restore_clauses (opts : RestoreOptions)
    (inv : Reconstructs f e es base pending) (fixes : FixedHolds fixed) :
    ∃ e' es', e.restore_clauses opts fixed = some e' ∧
      Reconstructs f e' es' (fun m => Models m e'.clauses) [] ∧
      e'.tainted = [] ∧ e'.assumptions = e.assumptions := by
  obtain ⟨es', e₁, after, looped, restored⟩ :=
    restoreLoop_restores (q := []) opts fixes (reconstructs_restorable inv)
  have literals : ∀ d ∈ es', Within e₁.max_var (d.1 ++ d.2) := fun d entry =>
    within_mono restored.room (inv.literals d (restored.kept.subset entry))
  obtain ⟨map, remarked, marks⟩ := remark_marks []
    fun d entry l literal => (literals d entry l literal).1
  refine ⟨{ e₁ with extension := stackText es', tainted := [], witness := map }, es', ?_, ?_, rfl,
    restored.assumptions⟩
  · unfold restore_clauses
    rw [inv.text, looped]
    simp [remarked]
  · refine ⟨rfl, literals, ?_, by simp [Models], ?_, ?_, by simp, by simp, ?_, ?_, ?_⟩
    · intro d entry l witnessed
      have nonzero := (literals d entry l (List.mem_append_left _ witnessed)).1
      exact (marks l nonzero).mpr (Or.inl ⟨d, entry, witnessed⟩)
    · exact sound_congr (fun m => (restored.split m).symm) (pass_sound restored.pass inv.sound)
    · intro m
      have old := inv.whole m
      have model := inv.split m
      have left := restored.split m
      have grows := pass_grows restored.pass m
      have reaches := pass_reaches restored.pass m
      have covers := pass_covers restored.pass m
      simp only [List.forall_mem_map] at reaches covers
      have fewer : (∀ d ∈ es, Holds m d.2) → ∀ d ∈ es', Holds m d.2 :=
        fun all d entry => all d (restored.kept.subset entry)
      constructor
      · intro models
        obtain ⟨now, all⟩ := old.mp models
        obtain ⟨based, asked⟩ := model.mp now
        exact ⟨left.mpr ⟨based, reaches asked all⟩, fewer all⟩
      · rintro ⟨now, all⟩
        obtain ⟨based, asked⟩ := left.mp now
        exact old.mpr ⟨model.mpr ⟨based, grows asked⟩, covers based asked all⟩
    · intro a mem d entry witnessed
      rw [restored.assumptions] at mem
      have known := inv.assumed a mem d (restored.kept.subset entry) witnessed
      exact absurd witnessed (untainted_apart (restored.clean d entry) known)
    · exact fun c mem => within_mono restored.room (inv.covers c mem)
    · rw [restored.assumptions]
      exact within_mono restored.room inv.asked

theorem reconstructs_restore (opts : RestoreOptions) (inv : Reconstructs f e es base pending)
    (fixes : FixedHolds fixed) :
    ∃ e' es', e.internal_restore opts fixed = some e' ∧
      Reconstructs f e' es' (fun m => Models m e'.clauses) [] ∧
      e'.tainted = [] ∧ e'.assumptions = e.assumptions := by
  unfold internal_restore
  by_cases quiet : opts.restoreall ≤ 1 ∧ e.tainted = []
  · rw [if_pos quiet]
    exact ⟨e, es, rfl, reconstructs_settle inv quiet.2, quiet.2, rfl⟩
  · rw [if_neg quiet]
    exact reconstructs_restore_clauses opts inv fixes

theorem reaches_reconstructs (reaches : Reaches f e) :
    ∃ es base pending, Reconstructs f e es base pending := by
  induction reaches with
  | new => exact ⟨_, _, _, reconstructs_new⟩
  | add _ nonzero ih =>
    obtain ⟨es, base, pending, inv⟩ := ih
    exact ⟨_, _, _, reconstructs_add inv nonzero⟩
  | assume _ nonzero ih =>
    obtain ⟨es, base, pending, inv⟩ := ih
    exact ⟨_, _, _, reconstructs_assume inv nonzero⟩
  | reset_assumptions _ ih =>
    obtain ⟨es, base, pending, inv⟩ := ih
    exact ⟨_, _, _, reconstructs_reset inv⟩
  | @restore f e e' opts fixed _ fixes result ih =>
    obtain ⟨es, base, pending, inv⟩ := ih
    obtain ⟨e'', es', again, inv, _⟩ := reconstructs_restore opts inv fixes
    rw [result] at again
    cases again
    exact ⟨_, _, _, inv⟩
  | simplify _ same ih =>
    obtain ⟨es, base, pending, inv⟩ := ih
    exact ⟨_, _, _, reconstructs_simplify inv same⟩
  | weaken _ clean weakens ih =>
    obtain ⟨es, base, pending, inv⟩ := ih
    exact ⟨_, _, _, reconstructs_weaken inv clean weakens⟩
  | @extend f e e' value _ result ih =>
    obtain ⟨es, base, pending, inv⟩ := ih
    obtain ⟨vals, _, same⟩ := Option.bind_eq_some_iff.mp result
    cases same
    exact ⟨_, _, _, reconstructs_values inv vals true⟩

end Steps

section Answers
variable {f : Cnf} {e : External} {es : List Weakened} {base : Assignment → Prop} {pending : Cnf}
  {fixed : Cnf → Int → Bool} {value : Nat → Option Bool} {m : Assignment} {vals : List Bool}
  {max_var : Nat} {ls : List Int} {l : Int}

/-- A solution of the internal solver, which has a value for each variable that is in use. -/
structure Valued (e : External) (value : Nat → Option Bool) (m : Assignment) : Prop where
  models : Models m e.clauses
  assumed : AllTrue m e.assumptions
  within : ∀ c ∈ e.clauses, Within e.max_var c
  clauses : ∀ c ∈ e.clauses, ∀ l ∈ c, value l.natAbs = some (m l.natAbs)
  assumptions : ∀ a ∈ e.assumptions, value a.natAbs = some (m a.natAbs)

theorem copyVals_value {v : Nat} {b : Bool} (positive : 1 ≤ v) (bound : v ≤ e.max_var)
    (known : value v = some b) : assignment (e.copyVals value) v = b := by
  have filled : ∀ is : List Nat, v ∈ is →
      assignment (is.foldl (fun vals i => (value i).elim vals (setVal vals i)) e.vals) v = b := by
    intro is
    induction is using List.reverseRecOn with
    | nil => simp
    | append_singleton is i ih =>
      intro mem
      rw [List.foldl_append, List.foldl_cons, List.foldl_nil]
      by_cases same : v = i
      · rw [← same, known, Option.elim_some, assignment_setVal]
        exact if_pos rfl
      · have earlier : v ∈ is := by simpa [same] using mem
        cases value i with
        | none => exact ih earlier
        | some b' =>
          rw [Option.elim_some, assignment_setVal]
          exact (if_neg same).trans (ih earlier)
  exact filled _ (List.mem_range'_1.mpr ⟨positive, by omega⟩)

theorem copyVals_true (nonzero : l ≠ 0) (bound : l.natAbs ≤ e.max_var)
    (known : value l.natAbs = some (m l.natAbs)) :
    litTrue (assignment (e.copyVals value)) l = litTrue m l :=
  litTrue_congr (copyVals_value (by omega) bound known)

theorem copyVals_valued (asked : Within e.max_var e.assumptions) (valued : Valued e value m) :
    Models (assignment (e.copyVals value)) e.clauses ∧
      AllTrue (assignment (e.copyVals value)) e.assumptions := by
  constructor
  · intro c mem
    obtain ⟨l, literal, true_l⟩ := valued.models c mem
    obtain ⟨nonzero, bound⟩ := valued.within c mem l literal
    refine ⟨l, literal, ?_⟩
    rw [copyVals_true nonzero bound (valued.clauses c mem l literal)]
    exact true_l
  · intro a mem
    rw [copyVals_true (asked a mem).1 (asked a mem).2 (valued.assumptions a mem)]
    exact valued.assumed a mem

/-- With no tainted literal, repairing a solution satisfies all the clauses, and the assumptions
stay true. -/
theorem rebuild_solves (inv : Reconstructs f e es base pending) (clean : e.tainted = [])
    (asked : ls ⊆ e.assumptions) (models : Models m e.clauses) (true_ls : AllTrue m ls) :
    Models (rebuild (es.map removal) m) f ∧ AllTrue (rebuild (es.map removal) m) ls := by
  have inv := reconstructs_settle inv clean
  obtain ⟨left, satisfied⟩ := rebuild_satisfies inv.sound models
  simp only [List.forall_mem_map] at satisfied
  refine ⟨(inv.whole _).mpr ⟨left, satisfied⟩, ?_⟩
  intro a mem
  refine rebuild_keeps (P := fun m => litTrue m a = true) ?_ (true_ls a mem)
  intro r entry m true_a
  obtain ⟨d, entry, same⟩ := List.mem_map.mp entry
  rw [← same]
  refine setAll_keeps (inv.asked a (asked mem)).1 ?_ true_a
  intro witnessed
  have known := inv.assumed a (asked mem) d entry witnessed
  exact untainted_apart (untainted_clean clean) known witnessed

theorem ival_consistent (nonzero : l ≠ 0) :
    ival max_var vals l ≠ 0 ∧ ival max_var vals l = -ival max_var vals (-l) := by
  unfold ival
  rw [Int.natAbs_neg]
  generalize vals.getD l.natAbs false = b
  constructor
  · dsimp only
    split_ifs <;> omega
  · dsimp only
    split_ifs <;> omega

theorem checks_pass {e : External} (covers : ∀ c ∈ f, Within e.max_var c)
    (asked : Within e.max_var e.assumptions) (models : Models (assignment e.vals) f)
    (assumed : AllTrue (assignment e.vals) e.assumptions) :
    e.check_assignment f = true ∧ e.check_assumptions_satisfied = true := by
  unfold check_assignment check_assumptions_satisfied
  simp only [Bool.and_eq_true, List.all_eq_true, List.any_eq_true, decide_eq_true_eq]
  refine ⟨⟨?_, ?_⟩, ?_⟩
  · intro idx mem
    have positive := (List.mem_range'_1.mp mem).1
    exact ival_consistent (by omega)
  · intro c mem
    obtain ⟨l, literal, true_l⟩ := models c mem
    obtain ⟨nonzero, bound⟩ := covers c mem l literal
    exact ⟨l, literal, (ival_signs nonzero bound).1.mpr true_l⟩
  · intro a mem
    exact (ival_signs (asked a mem).1 (asked a mem).2).1.mpr (assumed a mem)

/-- Extending never leaves the stack, and the checks of the library pass behind it: every clause
that was ever added is satisfied, and so is every assumption. -/
theorem extended_solution (reaches : Reaches f e) (clean : e.tainted = [])
    (valued : Valued e value m) :
    ∃ e', e.extend value = some e' ∧ e'.check_assignment f = true ∧
      e'.check_assumptions_satisfied = true := by
  obtain ⟨es, base, pending, inv⟩ := reaches_reconstructs reaches
  obtain ⟨models, assumed⟩ := copyVals_valued inv.asked valued
  obtain ⟨vals, result, rebuilt⟩ := extendLoop_rebuilds (e.copyVals value) inv.literals
  obtain ⟨solved, kept⟩ := rebuild_solves inv clean (List.Subset.refl _) models assumed
  rw [← rebuilt] at solved kept
  refine ⟨{ e with vals := vals, extended := true }, ?_, checks_pass inv.covers inv.asked solved kept⟩
  unfold External.extend
  rw [inv.text, result]
  rfl

def sampleAdded : External := ((External.new.addClause [1, 2]).addClause [-1, 3]).assume 3

/-- The first variable is eliminated: the resolvent is there, and one clause is on the stack. -/
def sampleHalf : External :=
  push_pivot_clause [1, 2] 1 { sampleAdded with clauses := [[-1, 3], [2, 3]] }

def sampleEliminated : External := push_binary_clause (-1) 3 { sampleHalf with clauses := [[2, 3]] }

theorem sampleHalf_weakens : Weakens { sampleAdded with clauses := [[1, 2], [-1, 3], [2, 3]] }
    [[-1, 3], [2, 3]] [1] [1, 2] where
  left := by
    intro m
    simp only [Models, List.forall_mem_cons]
    tauto
  repairs := by
    intro m
    simp [Models, Holds, setAll, assign, litTrue]
    cases m 1 <;> cases m 2 <;> cases m 3 <;> simp
  literals := by
    unfold Within
    decide
  frozen := by decide

theorem sampleEliminated_weakens : Weakens sampleHalf [[2, 3]] [-1] [-1, 3] where
  left := by
    intro m
    have given : sampleHalf.clauses = [[-1, 3], [2, 3]] := by decide
    rw [given]
    simp only [Models, List.forall_mem_cons]
    tauto
  repairs := by
    intro m
    simp [Models, Holds, setAll, assign, litTrue]
    cases m 1 <;> cases m 2 <;> cases m 3 <;> simp
  literals := by
    unfold Within
    decide
  frozen := by decide

theorem sampleEliminated_reached : Reaches [[1, 2], [-1, 3]] sampleEliminated := by
  have added : Reaches [[1, 2], [-1, 3]] sampleAdded :=
    .assume (.add (.add .new (by decide)) (by decide)) (by decide)
  have resolves : ∀ m, Models m [[1, 2], [-1, 3], [2, 3]] ↔ Models m sampleAdded.clauses := by
    intro m
    have given : sampleAdded.clauses = [[1, 2], [-1, 3]] := by decide
    rw [given]
    simp [Models, Holds, litTrue]
    cases m 1 <;> cases m 2 <;> cases m 3 <;> simp
  have first := Reaches.weaken (.simplify added resolves) (by decide) sampleHalf_weakens
  rw [← push_pivot_entry] at first
  have second := Reaches.weaken (e := sampleHalf) first (by decide) sampleEliminated_weakens
  rw [← push_binary_entry] at second
  exact second

def sampleValue (i : Nat) : Option Bool := if i = 3 then some true else some false

theorem extended_solution_small :
    ∃ e', sampleEliminated.extend sampleValue = some e' ∧
      e'.check_assignment [[1, 2], [-1, 3]] = true ∧ e'.check_assumptions_satisfied = true := by
  have within : ∀ c ∈ sampleEliminated.clauses, Within sampleEliminated.max_var c := by
    unfold Within
    decide
  have assumed : AllTrue (fun i => i = 3) sampleEliminated.assumptions := by
    unfold AllTrue
    decide
  have valued : Valued sampleEliminated sampleValue fun i => i = 3 :=
    ⟨by decide, assumed, within, by decide, by decide⟩
  exact extended_solution sampleEliminated_reached (by decide) valued

/-- The restoration that a solve begins with never leaves the stack, and afterwards the clauses that
are not on the stack answer like all the clauses together, for any part of the assumptions. -/
theorem restored_answer (opts : RestoreOptions) (reaches : Reaches f e)
    (fixes : FixedHolds fixed) :
    ∃ e', e.internal_restore opts fixed = some e' ∧ e'.tainted = [] ∧
      e'.assumptions = e.assumptions ∧
      ∀ ls ⊆ e.assumptions, (Inconsistent e'.clauses ls ↔ Inconsistent f ls) := by
  obtain ⟨es, base, pending, inv⟩ := reaches_reconstructs reaches
  obtain ⟨e', es', result, inv, clean, same⟩ := reconstructs_restore opts inv fixes
  refine ⟨e', result, clean, same, ?_⟩
  intro ls asked
  constructor
  · intro refuted m models
    exact refuted m ((inv.whole m).mp models).1
  · intro refuted m models true_ls
    obtain ⟨solved, kept⟩ := rebuild_solves inv clean (same ▸ asked) models true_ls
    exact refuted _ solved kept

def sampleFixed (f : Cnf) (l : Int) : Bool := f.any fun c => decide (c = [l])

theorem restored_answer_small :
    ∃ e', (sampleEliminated.addClause [-1]).internal_restore ⟨0, false⟩ sampleFixed = some e' ∧
      e'.tainted = [] ∧ e'.assumptions = [3] ∧
      ∀ ls ⊆ [3], (Inconsistent e'.clauses ls ↔
        Inconsistent ([[1, 2], [-1, 3]] ++ [[-1]]) ls) := by
  have fixes : FixedHolds sampleFixed := by
    intro f l known m models
    obtain ⟨c, unit, same⟩ := List.any_eq_true.mp known
    rw [of_decide_eq_true same] at unit
    obtain ⟨k, mem, true_k⟩ := models [l] unit
    rw [List.mem_singleton.mp mem] at true_k
    exact true_k
  exact restored_answer ⟨0, false⟩ (.add sampleEliminated_reached (by decide)) fixes

end Answers

end Cadical
end EvalMaxSat
