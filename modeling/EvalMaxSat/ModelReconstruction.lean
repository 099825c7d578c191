import Mathlib.Tactic

/-!
Simplifications that lose solutions, and how a solution is repaired. A constraint that was taken
away is kept with a repair; a stack of them is sound when each repair, where it is needed, keeps
what is left and all the constraints that were taken away later. Constraints can be put back from
any place of the stack, as long as the repairs that stay do not hurt what is put back.
-/
namespace ModelReconstruction

variable {α : Type}

structure Removal (α : Type) where
  holds : α → Prop
  repair : α → α

/-- The oldest entry is the first. -/
def Sound (base : α → Prop) : List (Removal α) → Prop
  | [] => True
  | e :: later => (∀ m, base m → (∀ d ∈ later, d.holds m) → ¬ e.holds m →
      base (e.repair m) ∧ (∀ d ∈ later, d.holds (e.repair m)) ∧ e.holds (e.repair m)) ∧
    Sound base later

open Classical in
noncomputable def rebuild : List (Removal α) → α → α
  | [], m => m
  | e :: later, m =>
    if e.holds (rebuild later m) then rebuild later m else e.repair (rebuild later m)

variable {base base' before after : α → Prop} {stack rest : List (Removal α)} {e : Removal α} {m : α}

/-- Going back through the stack satisfies everything that was ever taken away. -/
theorem rebuild_satisfies (sound : Sound base stack) (model : base m) :
    base (rebuild stack m) ∧ ∀ e ∈ stack, e.holds (rebuild stack m) := by
  induction stack with
  | nil => exact ⟨model, by simp⟩
  | cons e later ih =>
    obtain ⟨repairs, sound⟩ := sound
    obtain ⟨left, satisfied⟩ := ih sound
    unfold rebuild
    by_cases holds : e.holds (rebuild later m)
    · rw [if_pos holds]
      exact ⟨left, List.forall_mem_cons.mpr ⟨holds, satisfied⟩⟩
    · rw [if_neg holds]
      obtain ⟨kept, others, repaired⟩ := repairs _ left satisfied holds
      exact ⟨kept, List.forall_mem_cons.mpr ⟨repaired, others⟩⟩

theorem rebuild_append : rebuild (stack ++ [e]) m = rebuild stack (rebuild [e] m) := by
  induction stack with
  | nil => rfl
  | cons d later ih =>
    rw [List.cons_append, rebuild, ih]
    rfl

theorem rebuild_held (holds : e.holds m) : rebuild [e] m = m := if_pos holds

theorem rebuild_broken (broken : ¬ e.holds m) : rebuild [e] m = e.repair m := if_neg broken

theorem rebuild_keeps {P : α → Prop} (keeps : ∀ e ∈ stack, ∀ m, P m → P (e.repair m)) (start : P m) :
    P (rebuild stack m) := by
  induction stack with
  | nil => exact start
  | cons e later ih =>
    have behind := ih fun d mem => keeps d (List.mem_cons_of_mem e mem)
    unfold rebuild
    split
    · exact behind
    · exact keeps e List.mem_cons_self _ behind

theorem sound_congr (same : ∀ m, base m ↔ base' m) (sound : Sound base stack) :
    Sound base' stack := by
  have equal : base = base' := funext fun m => propext (same m)
  rw [← equal]
  exact sound

theorem sound_and (keeps : ∀ e ∈ stack, ∀ m, before m → before (e.repair m))
    (sound : Sound base stack) : Sound (fun m => base m ∧ before m) stack := by
  induction stack with
  | nil => trivial
  | cons e later ih =>
    obtain ⟨repairs, sound⟩ := sound
    refine ⟨?_, ih (fun d mem => keeps d (List.mem_cons_of_mem e mem)) sound⟩
    rintro m ⟨model, asked⟩ satisfied broken
    obtain ⟨kept, others, repaired⟩ := repairs m model satisfied broken
    exact ⟨⟨kept, keeps e List.mem_cons_self m asked⟩, others, repaired⟩

theorem sound_push (sound : Sound base stack) (split : ∀ m, base m ↔ base' m ∧ e.holds m)
    (repairs : ∀ m, base' m → ¬ e.holds m → base' (e.repair m) ∧ e.holds (e.repair m)) :
    Sound base' (stack ++ [e]) := by
  induction stack with
  | nil =>
    refine ⟨?_, trivial⟩
    intro m model _ broken
    obtain ⟨kept, repaired⟩ := repairs m model broken
    exact ⟨kept, by simp, repaired⟩
  | cons d later ih =>
    obtain ⟨older, sound⟩ := sound
    refine ⟨?_, ih sound⟩
    intro m model satisfied broken
    obtain ⟨newer, last⟩ := List.forall_mem_append.mp satisfied
    have whole := (split m).mpr ⟨model, last e (List.mem_singleton.mpr rfl)⟩
    obtain ⟨kept, others, repaired⟩ := older m whole newer broken
    obtain ⟨left, still⟩ := (split _).mp kept
    refine ⟨left, ?_, repaired⟩
    intro c mem
    rcases List.mem_append.mp mem with old | new
    · exact others c old
    · rw [List.mem_singleton.mp new]
      exact still

/-- A pass over the stack, from the oldest entry on. An entry stays if its repair keeps what was put
back before it; another one is put back, or dropped because it holds in the end anyway. `before` is
what was put back so far, and `after` what is in the end. -/
inductive Pass (base after : α → Prop) :
    (α → Prop) → List (Removal α) → List (Removal α) → Prop
  | done : Pass base after after [] []
  | keep {before : α → Prop} {e : Removal α} {stack rest : List (Removal α)} :
      (∀ m, before m → before (e.repair m)) → Pass base after before stack rest →
      Pass base after before (e :: stack) (e :: rest)
  | restore {before : α → Prop} {e : Removal α} {stack rest : List (Removal α)} :
      Pass base after (fun m => before m ∧ e.holds m) stack rest →
      Pass base after before (e :: stack) rest
  | drop {before : α → Prop} {e : Removal α} {stack rest : List (Removal α)} :
      (∀ m, base m → after m → e.holds m) → Pass base after before stack rest →
      Pass base after before (e :: stack) rest

theorem pass_grows (pass : Pass base after before stack rest) : ∀ m, after m → before m := by
  induction pass with
  | done => exact fun m asked => asked
  | keep _ _ ih => exact ih
  | restore _ ih => exact fun m asked => (ih m asked).1
  | drop _ _ ih => exact ih

theorem pass_reaches (pass : Pass base after before stack rest) :
    ∀ m, before m → (∀ e ∈ stack, e.holds m) → after m := by
  induction pass with
  | done => exact fun m asked _ => asked
  | keep _ _ ih =>
    exact fun m asked satisfied => ih m asked fun d mem => satisfied d (List.mem_cons_of_mem _ mem)
  | restore _ ih =>
    intro m asked satisfied
    exact ih m ⟨asked, satisfied _ List.mem_cons_self⟩
      fun d mem => satisfied d (List.mem_cons_of_mem _ mem)
  | drop _ _ ih =>
    exact fun m asked satisfied => ih m asked fun d mem => satisfied d (List.mem_cons_of_mem _ mem)

/-- Nothing is lost: what does not stay holds in the end. -/
theorem pass_covers (pass : Pass base after before stack rest) :
    ∀ m, base m → after m → (∀ e ∈ rest, e.holds m) → ∀ e ∈ stack, e.holds m := by
  induction pass with
  | done => simp
  | keep _ _ ih =>
    intro m model asked satisfied
    obtain ⟨first, others⟩ := List.forall_mem_cons.mp satisfied
    exact List.forall_mem_cons.mpr ⟨first, ih m model asked others⟩
  | restore pass ih =>
    intro m model asked satisfied
    exact List.forall_mem_cons.mpr ⟨(pass_grows pass m asked).2, ih m model asked satisfied⟩
  | drop holds _ ih =>
    intro m model asked satisfied
    exact List.forall_mem_cons.mpr ⟨holds m model asked, ih m model asked satisfied⟩

theorem pass_sublist (pass : Pass base after before stack rest) : rest.Sublist stack := by
  induction pass with
  | done => exact .slnil
  | keep _ _ ih => exact .cons_cons _ ih
  | restore _ ih => exact .cons _ ih
  | drop _ _ ih => exact .cons _ ih

theorem pass_sound (pass : Pass base after before stack rest) (sound : Sound base stack) :
    Sound (fun m => base m ∧ after m) rest := by
  induction pass with
  | done => trivial
  | @keep before e stack rest keeps pass ih =>
    obtain ⟨repairs, sound⟩ := sound
    refine ⟨?_, ih sound⟩
    rintro m ⟨model, asked⟩ satisfied broken
    have all := pass_covers pass m model asked satisfied
    obtain ⟨kept, others, repaired⟩ := repairs m model all broken
    have reached := pass_reaches pass _ (keeps m (pass_grows pass m asked)) others
    exact ⟨⟨kept, reached⟩, fun d mem => others d ((pass_sublist pass).subset mem), repaired⟩
  | restore _ ih => exact ih sound.2
  | drop _ _ ih => exact ih sound.2

end ModelReconstruction
