import Mathlib.Order.RelClasses
import Mathlib.Order.WellFounded

/-!
Programs over an explicit state whose every state change is a labelled step.
A run is truncated by a fuel number; `stable` and `chained` are carried by the
structure, so a program that can be written at all ends in one way only and its
recorded steps form a path from the first state to the last.
-/
namespace StepProgram

structure Event (L σ : Type) where
  label : L
  before : σ
  after : σ

/-- Consecutive recorded steps agree on the state between them. -/
def Chain {L σ : Type} : σ → List (Event L σ) → σ → Prop
  | s, [], t => s = t
  | s, e :: es, t => e.before = s ∧ Chain e.after es t

theorem chain_append {L σ : Type} {xs ys : List (Event L σ)} {s t u : σ}
    (first : Chain s xs t) (second : Chain t ys u) : Chain s (xs ++ ys) u := by
  induction xs generalizing s with
  | nil => cases first; exact second
  | cons e es ih => exact ⟨first.1, ih first.2⟩

theorem chain_concat {L σ : Type} {xs : List (Event L σ)} {e : Event L σ} {s t : σ}
    (path : Chain s (xs ++ [e]) t) : Chain s xs e.before ∧ e.after = t := by
  induction xs generalizing s with
  | nil => exact ⟨path.1.symm, path.2⟩
  | cons d xs ih =>
    obtain ⟨same, rest⟩ := path
    obtain ⟨first, last⟩ := ih rest
    exact ⟨⟨same, first⟩, last⟩

/-- What one step preserves, a whole path preserves, at every point of it. -/
theorem chain_invariant {L σ : Type} (I : σ → Prop) {xs : List (Event L σ)} {s t : σ}
    (path : Chain s xs t) (start : I s)
    (step : ∀ e ∈ xs, I e.before → I e.after) :
    I t ∧ ∀ e ∈ xs, I e.before ∧ I e.after := by
  induction xs generalizing s with
  | nil => cases path; exact ⟨start, by simp⟩
  | cons e es ih =>
    obtain ⟨same, rest⟩ := path
    subst same
    have after := step e (by simp) start
    obtain ⟨final, all⟩ := ih rest after (fun d mem => step d (by simp [mem]))
    refine ⟨final, ?_⟩
    intro d mem
    rcases List.mem_cons.mp mem with same | mem
    · subst same; exact ⟨start, after⟩
    · exact all d mem

inductive Outcome (α : Type) where
  | done (a : α)
  | exit
  | fuel

def Outcome.Ended {α : Type} : Outcome α → Prop
  | .fuel => False
  | _ => True

structure Prog (L σ α : Type) where
  run : Nat → σ → List (Event L σ) × Outcome α × σ
  stable : ∀ n s, (run n s).2.1.Ended → run (n + 1) s = run n s
  chained : ∀ n s, Chain s (run n s).1 (run n s).2.2

variable {L σ α β : Type}

namespace Prog

theorem run_mono (m : Prog L σ α) {n k : Nat} (le : n ≤ k) {s : σ}
    (ended : (m.run n s).2.1.Ended) : m.run k s = m.run n s := by
  induction k, le using Nat.le_induction with
  | base => rfl
  | succ k _ ih => rw [m.stable k s (by rw [ih]; exact ended), ih]

def pure (a : α) : Prog L σ α where
  run := fun _ s => ([], .done a, s)
  stable := fun _ _ _ => rfl
  chained := fun _ _ => rfl

/-- The process ends here: `exit` in the source. -/
def exit : Prog L σ α where
  run := fun _ s => ([], .exit, s)
  stable := fun _ _ _ => rfl
  chained := fun _ _ => rfl

def read : Prog L σ σ where
  run := fun _ s => ([], .done s, s)
  stable := fun _ _ _ => rfl
  chained := fun _ _ => rfl

def act (l : L) (f : σ → α × σ) : Prog L σ α where
  run := fun _ s => ([⟨l, s, (f s).2⟩], .done (f s).1, (f s).2)
  stable := fun _ _ _ => rfl
  chained := fun _ _ => ⟨rfl, rfl⟩

def bindRun (m : Prog L σ α) (k : α → Prog L σ β) (n : Nat) (s : σ) :
    List (Event L σ) × Outcome β × σ :=
  match m.run n s with
  | (tr, .done a, t) => (tr ++ ((k a).run n t).1, ((k a).run n t).2)
  | (tr, .exit, t) => (tr, .exit, t)
  | (tr, .fuel, t) => (tr, .fuel, t)

def bind (m : Prog L σ α) (k : α → Prog L σ β) : Prog L σ β where
  run := bindRun m k
  stable := by
    intro n s ended
    have first := m.stable n s
    simp only [bindRun] at ended ⊢
    rcases run : m.run n s with ⟨tr, o, t⟩
    rw [run] at ended first
    cases o with
    | done a =>
      rw [first trivial]
      simp only at ended ⊢
      rw [(k a).stable n t ended]
    | exit => rw [first trivial]
    | fuel => exact ended.elim
  chained := by
    intro n s
    have first := m.chained n s
    simp only [bindRun]
    rcases run : m.run n s with ⟨tr, o, t⟩
    rw [run] at first
    cases o with
    | done a => exact chain_append first ((k a).chained n t)
    | exit => exact first
    | fuel => exact first

def loopRun (body : β → Prog L σ (β ⊕ α)) : Nat → β → σ → List (Event L σ) × Outcome α × σ
  | 0, _, s => ([], .fuel, s)
  | n + 1, b, s =>
    match (body b).run n s with
    | (tr, .done (.inl c), t) => (tr ++ (loopRun body n c t).1, (loopRun body n c t).2)
    | (tr, .done (.inr a), t) => (tr, .done a, t)
    | (tr, .exit, t) => (tr, .exit, t)
    | (tr, .fuel, t) => (tr, .fuel, t)

/-- An unbounded loop: `inl` goes round again, `inr` leaves. -/
def loop (body : β → Prog L σ (β ⊕ α)) (b : β) : Prog L σ α where
  run := fun n s => loopRun body n b s
  stable := by
    intro n
    induction n generalizing b with
    | zero => intro s ended; exact ended.elim
    | succ n ih =>
      intro s ended
      have first := (body b).stable n s
      rw [loopRun]
      rw [loopRun] at ended ⊢
      rcases run : (body b).run n s with ⟨tr, o, t⟩
      rw [run] at ended first
      cases o with
      | done x =>
        rw [first trivial]
        cases x with
        | inl c => simp only at ended ⊢; rw [ih c t ended]
        | inr a => rfl
      | exit => rw [first trivial]
      | fuel => exact ended.elim
  chained := by
    intro n
    induction n generalizing b with
    | zero => intro s; rfl
    | succ n ih =>
      intro s
      have first := (body b).chained n s
      simp only [loopRun]
      rcases run : (body b).run n s with ⟨tr, o, t⟩
      rw [run] at first
      cases o with
      | done x =>
        cases x with
        | inl c => exact chain_append first (ih c t)
        | inr a => exact first
      | exit => exact first
      | fuel => exact first

instance : Monad (Prog L σ) where
  pure := Prog.pure
  bind := Prog.bind

/-- A counted loop over a list, left to right, threading an accumulator. -/
def fold (f : β → α → Prog L σ β) : β → List α → Prog L σ β
  | b, [] => Prog.pure b
  | b, x :: xs => (f b x).bind fun c => fold f c xs

/-- `m` run from `s` ends with outcome `o` in state `t`, having made the steps `tr`. -/
def Ends (m : Prog L σ α) (s : σ) (tr : List (Event L σ)) (o : Outcome α) (t : σ) : Prop :=
  o.Ended ∧ ∃ n, m.run n s = (tr, o, t)

theorem ends_unique {m : Prog L σ α} {s : σ} {tr tr' : List (Event L σ)} {o o' : Outcome α}
    {t t' : σ} (first : m.Ends s tr o t) (second : m.Ends s tr' o' t') :
    tr = tr' ∧ o = o' ∧ t = t' := by
  obtain ⟨ended, n, run⟩ := first
  obtain ⟨ended', k, run'⟩ := second
  have left := m.run_mono (Nat.le_max_left n k) (s := s) (by rw [run]; exact ended)
  have right := m.run_mono (Nat.le_max_right n k) (s := s) (by rw [run']; exact ended')
  have same : (tr, o, t) = (tr', o', t') := by rw [← run, ← run', ← left, right]
  simpa using same

theorem ends_chain {m : Prog L σ α} {s t : σ} {tr : List (Event L σ)} {o : Outcome α}
    (ends : m.Ends s tr o t) : Chain s tr t := by
  obtain ⟨_, n, run⟩ := ends
  have path := m.chained n s
  rwa [run] at path

theorem ends_pure (a : α) (s : σ) : (Pure.pure a : Prog L σ α).Ends s [] (.done a) s :=
  ⟨trivial, 0, rfl⟩

theorem ends_act (l : L) (f : σ → α × σ) (s : σ) :
    (act l f).Ends s [⟨l, s, (f s).2⟩] (.done (f s).1) (f s).2 := ⟨trivial, 0, rfl⟩

theorem ends_bind {m : Prog L σ α} {k : α → Prog L σ β} {s t u : σ} {tr tr' : List (Event L σ)}
    {a : α} {o : Outcome β} (first : m.Ends s tr (.done a) t) (second : (k a).Ends t tr' o u) :
    (m >>= k).Ends s (tr ++ tr') o u := by
  obtain ⟨_, n, run⟩ := first
  obtain ⟨ended, j, run'⟩ := second
  refine ⟨ended, max n j, ?_⟩
  have left := m.run_mono (Nat.le_max_left n j) (s := s) (by rw [run]; trivial)
  have right := (k a).run_mono (Nat.le_max_right n j) (s := t) (by rw [run']; exact ended)
  change bindRun m k (max n j) s = _
  simp only [bindRun]
  rw [left, run]
  simp only
  rw [right, run']

end Prog

open Prog

/-- `m` run from `s` returns, every step it makes satisfies `E`, and the value and state
it returns satisfy `Q`. -/
def Wp (E : Event L σ → Prop) (m : Prog L σ α) (Q : α → σ → Prop) (s : σ) : Prop :=
  ∃ tr a t, m.Ends s tr (.done a) t ∧ (∀ e ∈ tr, E e) ∧ Q a t

variable {E : Event L σ → Prop}

theorem wp_mono {m : Prog L σ α} {Q R : α → σ → Prop} {s : σ} (h : Wp E m Q s)
    (weaker : ∀ a t, Q a t → R a t) : Wp E m R s := by
  obtain ⟨tr, a, t, ends, steps, post⟩ := h
  exact ⟨tr, a, t, ends, steps, weaker a t post⟩

theorem wp_pure {a : α} {Q : α → σ → Prop} {s : σ} (h : Q a s) :
    Wp E (Pure.pure a : Prog L σ α) Q s :=
  ⟨[], a, s, ⟨trivial, 0, rfl⟩, by simp, h⟩

theorem wp_read {Q : σ → σ → Prop} {s : σ} (h : Q s s) : Wp E (read : Prog L σ σ) Q s :=
  ⟨[], s, s, ⟨trivial, 0, rfl⟩, by simp, h⟩

theorem wp_act {l : L} {f : σ → α × σ} {Q : α → σ → Prop} {s : σ}
    (event : E ⟨l, s, (f s).2⟩) (h : Q (f s).1 (f s).2) : Wp E (act l f) Q s :=
  ⟨[⟨l, s, (f s).2⟩], (f s).1, (f s).2, ⟨trivial, 0, rfl⟩, by simpa using event, h⟩

theorem wp_bind {m : Prog L σ α} {k : α → Prog L σ β} {Q : β → σ → Prop} {s : σ}
    (h : Wp E m (fun a t => Wp E (k a) Q t) s) : Wp E (m >>= k) Q s := by
  obtain ⟨tr, a, t, first, steps, tr', b, u, second, steps', post⟩ := h
  refine ⟨tr ++ tr', b, u, ends_bind first second, ?_, post⟩
  intro e mem
  rcases List.mem_append.mp mem with mem | mem
  · exact steps e mem
  · exact steps' e mem

theorem wp_bind_read {k : σ → Prog L σ β} {Q : β → σ → Prop} {s : σ} (h : Wp E (k s) Q s) :
    Wp E (read >>= k) Q s := wp_bind (wp_read h)

theorem wp_ite {c : Prop} [Decidable c] {m k : Prog L σ α} {Q : α → σ → Prop} {s : σ}
    (yes : c → Wp E m Q s) (no : ¬ c → Wp E k Q s) : Wp E (if c then m else k) Q s := by
  split
  · rename_i h; exact yes h
  · rename_i h; exact no h

theorem wp_loop_once {body : β → Prog L σ (β ⊕ α)} {Q : α → σ → Prop} {b : β} {s : σ}
    (h : Wp E (body b) (fun x t => match x with
      | .inl c => Wp E (loop body c) Q t
      | .inr a => Q a t) s) : Wp E (loop body b) Q s := by
  obtain ⟨tr, x, t, ⟨_, n, run⟩, steps, post⟩ := h
  cases x with
  | inr a =>
    refine ⟨tr, a, t, ⟨trivial, n + 1, ?_⟩, steps, post⟩
    change loopRun body (n + 1) b s = _
    rw [loopRun, run]
  | inl c =>
    obtain ⟨tr', a, u, ⟨_, j, run'⟩, steps', post'⟩ := post
    refine ⟨tr ++ tr', a, u, ⟨trivial, max n j + 1, ?_⟩, ?_, post'⟩
    · have first := (body b).run_mono (Nat.le_max_left n j) (s := s) (by rw [run]; trivial)
      have second := (loop body c).run_mono (Nat.le_max_right n j) (s := t)
        (by rw [run']; trivial)
      change loopRun body (max n j + 1) b s = _
      rw [loopRun, first, run]
      simp only
      have rest : loopRun body (max n j) c t = (tr', .done a, u) := second.trans run'
      rw [rest]
    · intro e mem
      rcases List.mem_append.mp mem with mem | mem
      · exact steps e mem
      · exact steps' e mem

/-- The rule for unbounded loops: an invariant, and a measure in a well-founded order that
each further round decreases. -/
theorem wp_loop {γ : Type} {r : γ → γ → Prop} (wf : WellFounded r)
    (measure : β → σ → γ) (I : β → σ → Prop) {body : β → Prog L σ (β ⊕ α)}
    {Q : α → σ → Prop}
    (round : ∀ b s, I b s → Wp E (body b) (fun x t => match x with
      | .inl c => I c t ∧ r (measure c t) (measure b s)
      | .inr a => Q a t) s)
    (b : β) (s : σ) (start : I b s) : Wp E (loop body b) Q s := by
  induction h : measure b s using wf.induction generalizing b s with
  | _ v ih =>
    subst h
    apply wp_loop_once
    apply wp_mono (round b s start)
    intro x t post
    cases x with
    | inr a => exact post
    | inl c => exact ih _ post.2 c t post.1 rfl

theorem lex_wf : WellFounded (Prod.Lex (· < ·) (· < ·) : Nat × Nat → Nat × Nat → Prop) :=
  WellFounded.prod_lex Nat.lt_wfRel.wf Nat.lt_wfRel.wf

theorem lex_of_le {a b c d : Nat} (le : a ≤ b) (lt : c < d) :
    Prod.Lex (· < ·) (· < ·) (a, c) (b, d) := by
  rcases Nat.lt_or_eq_of_le le with less | same
  · exact Prod.Lex.left _ _ less
  · subst same; exact Prod.Lex.right _ lt

/-- The rule for counted loops: an invariant on the elements still to come. -/
theorem wp_fold (I : List α → β → σ → Prop) {f : β → α → Prog L σ β}
    {Q : β → σ → Prop}
    (round : ∀ x xs b s, I (x :: xs) b s → Wp E (f b x) (I xs) s)
    (final : ∀ b s, I [] b s → Q b s)
    (xs : List α) (b : β) (s : σ) (start : I xs b s) : Wp E (fold f b xs) Q s := by
  induction xs generalizing b s with
  | nil => exact wp_pure (final b s start)
  | cons x xs ih =>
    apply wp_bind (k := fun c => fold f c xs)
    apply wp_mono (round x xs b s start)
    intro c t post
    exact ih c t post

section Partial
variable {C : Event L σ → Prop}

/-- Where `m` run from `s` returns and every step it makes satisfies `C`, the value and state
it returns satisfy `Q`. -/
structure Wlp (C : Event L σ → Prop) (m : Prog L σ α) (Q : α → σ → Prop) (s : σ) : Prop where
  post : ∀ tr a t, m.Ends s tr (.done a) t → (∀ e ∈ tr, C e) → Q a t

theorem wlp_mono {m : Prog L σ α} {Q R : α → σ → Prop} {s : σ} (h : Wlp C m Q s)
    (weaker : ∀ a t, Q a t → R a t) : Wlp C m R s :=
  ⟨fun tr a t ends steps => weaker a t (h.post tr a t ends steps)⟩

theorem wlp_pure {a : α} {Q : α → σ → Prop} {s : σ} (h : Q a s) :
    Wlp C (Pure.pure a : Prog L σ α) Q s := by
  constructor
  intro tr b t ends _
  obtain ⟨_, same, rfl⟩ := ends_unique ends (ends_pure a s)
  rw [Outcome.done.inj same]
  exact h

theorem wlp_act {l : L} {f : σ → α × σ} {Q : α → σ → Prop} {s : σ}
    (h : C ⟨l, s, (f s).2⟩ → Q (f s).1 (f s).2) : Wlp C (act l f) Q s := by
  constructor
  intro tr a t ends steps
  obtain ⟨rfl, same, rfl⟩ := ends_unique ends (ends_act l f s)
  rw [Outcome.done.inj same]
  exact h (steps _ (List.mem_singleton_self _))

theorem wlp_bind {m : Prog L σ α} {k : α → Prog L σ β} {Q : β → σ → Prop} {s : σ}
    (h : Wlp C m (fun a t => Wlp C (k a) Q t) s) : Wlp C (m >>= k) Q s := by
  constructor
  rintro tr b u ⟨_, n, run⟩ steps
  change bindRun m k n s = _ at run
  simp only [bindRun] at run
  rcases part : m.run n s with ⟨tr', o, t⟩
  rw [part] at run
  cases o with
  | done a =>
    simp only [Prod.mk.injEq] at run
    obtain ⟨rfl, out⟩ := run
    have second := h.post tr' a t ⟨trivial, n, part⟩ fun e mem => steps e (List.mem_append_left _ mem)
    exact second.post _ b u ⟨trivial, n, Prod.ext rfl out⟩
      fun e mem => steps e (List.mem_append_right _ mem)
  | exit => simp at run
  | fuel => simp at run

theorem wlp_bind_read {k : σ → Prog L σ β} {Q : β → σ → Prop} {s : σ} (h : Wlp C (k s) Q s) :
    Wlp C (read >>= k) Q s := by
  apply wlp_bind
  constructor
  intro tr a t ends _
  obtain ⟨_, same, rfl⟩ := ends_unique ends (⟨trivial, 0, rfl⟩ : Ends read s [] (.done s) s)
  rw [Outcome.done.inj same]
  exact h

theorem wlp_ite {c : Prop} [Decidable c] {m k : Prog L σ α} {Q : α → σ → Prop} {s : σ}
    (yes : c → Wlp C m Q s) (no : ¬ c → Wlp C k Q s) : Wlp C (if c then m else k) Q s := by
  split
  · rename_i h; exact yes h
  · rename_i h; exact no h

theorem wlp_loop (I : β → σ → Prop) {body : β → Prog L σ (β ⊕ α)} {Q : α → σ → Prop}
    (round : ∀ b s, I b s → Wlp C (body b) (fun x t => match x with
      | .inl c => I c t
      | .inr a => Q a t) s)
    {b : β} {s : σ} (start : I b s) : Wlp C (loop body b) Q s := by
  constructor
  rintro tr a u ⟨_, n, run⟩ steps
  change loopRun body n b s = _ at run
  induction n generalizing b s tr with
  | zero => simp [loopRun] at run
  | succ n ih =>
    rw [loopRun] at run
    rcases part : (body b).run n s with ⟨tr', o, t⟩
    rw [part] at run
    have one := (round b s start).post tr'
    cases o with
    | done x =>
      cases x with
      | inl c =>
        simp only [Prod.mk.injEq] at run
        obtain ⟨rfl, out⟩ := run
        have next := one (.inl c) t ⟨trivial, n, part⟩
          fun e mem => steps e (List.mem_append_left _ mem)
        exact ih next _ (fun e mem => steps e (List.mem_append_right _ mem)) (Prod.ext rfl out)
      | inr a =>
        simp only [Prod.mk.injEq, Outcome.done.injEq] at run
        obtain ⟨rfl, rfl, rfl⟩ := run
        exact one (.inr a) t ⟨trivial, n, part⟩ steps
    | exit => simp at run
    | fuel => simp at run

end Partial

section Stepping

/-- Every step that `m` makes from `s` satisfies `E`, and where `m` returns, the value and state it
returns satisfy `Q`. -/
structure Along (E : Event L σ → Prop) (m : Prog L σ α) (Q : α → σ → Prop) (s : σ) : Prop where
  steps : ∀ tr o t, m.Ends s tr o t → ∀ e ∈ tr, E e
  post : ∀ tr a t, m.Ends s tr (.done a) t → Q a t

theorem along_mono {m : Prog L σ α} {Q R : α → σ → Prop} {s : σ} (h : Along E m Q s)
    (weaker : ∀ a t, Q a t → R a t) : Along E m R s :=
  ⟨h.steps, fun tr a t ends => weaker a t (h.post tr a t ends)⟩

theorem along_pure {a : α} {Q : α → σ → Prop} {s : σ} (h : Q a s) :
    Along E (Pure.pure a : Prog L σ α) Q s := by
  constructor
  · intro tr o t ends
    obtain ⟨rfl, _⟩ := ends_unique ends (ends_pure a s)
    exact fun e mem => absurd mem List.not_mem_nil
  · intro tr b t ends
    obtain ⟨_, same, rfl⟩ := ends_unique ends (ends_pure a s)
    rw [Outcome.done.inj same]
    exact h

theorem along_act {l : L} {f : σ → α × σ} {Q : α → σ → Prop} {s : σ} (event : E ⟨l, s, (f s).2⟩)
    (h : Q (f s).1 (f s).2) : Along E (act l f) Q s := by
  constructor
  · intro tr o t ends
    obtain ⟨rfl, _⟩ := ends_unique ends (ends_act l f s)
    exact fun e mem => List.mem_singleton.mp mem ▸ event
  · intro tr a t ends
    obtain ⟨_, same, rfl⟩ := ends_unique ends (ends_act l f s)
    rw [Outcome.done.inj same]
    exact h

theorem along_bind {m : Prog L σ α} {k : α → Prog L σ β} {Q : β → σ → Prop} {s : σ}
    (h : Along E m (fun a t => Along E (k a) Q t) s) : Along E (m >>= k) Q s := by
  have split : ∀ tr o u, (m >>= k).Ends s tr o u →
      (∀ e ∈ tr, E e) ∧ ∀ b, o = .done b → Q b u := by
    rintro tr o u ⟨ended, n, run⟩
    change bindRun m k n s = _ at run
    simp only [bindRun] at run
    rcases part : m.run n s with ⟨tr', out, t⟩
    rw [part] at run
    cases out with
    | done a =>
      simp only [Prod.mk.injEq] at run
      obtain ⟨rfl, rest⟩ := run
      have first : m.Ends s tr' (.done a) t := ⟨trivial, n, part⟩
      have second : (k a).Ends t ((k a).run n t).1 o u := ⟨ended, n, Prod.ext rfl rest⟩
      have after := h.post _ _ _ first
      refine ⟨fun e mem => ?_, fun b same => after.post _ b u (same ▸ second)⟩
      rcases List.mem_append.mp mem with mem | mem
      · exact h.steps _ _ _ first e mem
      · exact after.steps _ _ _ second e mem
    | exit =>
      simp only [Prod.mk.injEq] at run
      obtain ⟨rfl, rfl, rfl⟩ := run
      have exits : m.Ends s tr' .exit t := ⟨trivial, n, part⟩
      exact ⟨h.steps _ _ _ exits, fun b same => by simp at same⟩
    | fuel =>
      simp only [Prod.mk.injEq] at run
      rw [← run.2.1] at ended
      exact ended.elim
  exact ⟨fun tr o u ends => (split tr o u ends).1, fun tr b u ends => (split tr _ u ends).2 b rfl⟩

theorem along_bind_read {k : σ → Prog L σ β} {Q : β → σ → Prop} {s : σ} (h : Along E (k s) Q s) :
    Along E (read >>= k) Q s := by
  have reads : Ends (read : Prog L σ σ) s [] (.done s) s := ⟨trivial, 0, rfl⟩
  apply along_bind
  constructor
  · intro tr o t ends
    obtain ⟨rfl, _⟩ := ends_unique ends reads
    exact fun e mem => absurd mem List.not_mem_nil
  · intro tr a t ends
    obtain ⟨_, same, rfl⟩ := ends_unique ends reads
    rw [Outcome.done.inj same]
    exact h

theorem along_ite {c : Prop} [Decidable c] {m k : Prog L σ α} {Q : α → σ → Prop} {s : σ}
    (yes : c → Along E m Q s) (no : ¬ c → Along E k Q s) : Along E (if c then m else k) Q s := by
  split
  · rename_i h; exact yes h
  · rename_i h; exact no h

theorem along_loop (I : β → σ → Prop) {body : β → Prog L σ (β ⊕ α)} {Q : α → σ → Prop}
    (round : ∀ b s, I b s → Along E (body b) (fun x t => match x with
      | .inl c => I c t
      | .inr a => Q a t) s)
    {b : β} {s : σ} (start : I b s) : Along E (loop body b) Q s := by
  have rounds : ∀ n tr o u b s, I b s → o.Ended → loopRun body n b s = (tr, o, u) →
      (∀ e ∈ tr, E e) ∧ ∀ a, o = .done a → Q a u := by
    intro n
    induction n with
    | zero =>
      intro tr o u b s _ ended run
      simp only [loopRun, Prod.mk.injEq] at run
      rw [← run.2.1] at ended
      exact ended.elim
    | succ n ih =>
      intro tr o u b s inv ended run
      rw [loopRun] at run
      rcases part : (body b).run n s with ⟨tr', out, t⟩
      rw [part] at run
      have one := round b s inv
      cases out with
      | done x =>
        have ends : (body b).Ends s tr' (.done x) t := ⟨trivial, n, part⟩
        have next := one.post _ _ _ ends
        cases x with
        | inl c =>
          simp only [Prod.mk.injEq] at run
          obtain ⟨rfl, rest⟩ := run
          obtain ⟨later, final⟩ := ih _ o u c t next ended (Prod.ext rfl rest)
          refine ⟨fun e mem => ?_, final⟩
          rcases List.mem_append.mp mem with mem | mem
          · exact one.steps _ _ _ ends e mem
          · exact later e mem
        | inr a =>
          simp only [Prod.mk.injEq] at run
          obtain ⟨rfl, rfl, rfl⟩ := run
          refine ⟨one.steps _ _ _ ends, fun b same => ?_⟩
          rw [← Outcome.done.inj same]
          exact next
      | exit =>
        simp only [Prod.mk.injEq] at run
        obtain ⟨rfl, rfl, rfl⟩ := run
        have exits : (body b).Ends s tr' .exit t := ⟨trivial, n, part⟩
        exact ⟨one.steps _ _ _ exits, fun b same => by simp at same⟩
      | fuel =>
        simp only [Prod.mk.injEq] at run
        rw [← run.2.1] at ended
        exact ended.elim
  constructor
  · rintro tr o u ⟨ended, n, run⟩
    exact (rounds n tr o u b s start ended run).1
  · rintro tr a u ⟨ended, n, run⟩
    exact (rounds n tr (.done a) u b s start ended run).2 a rfl

theorem along_fold (I : β → σ → Prop) {f : β → α → Prog L σ β}
    (round : ∀ b x s, I b s → Along E (f b x) I s) (xs : List α) {b : β} {s : σ} (start : I b s) :
    Along E (fold f b xs) I s := by
  induction xs generalizing b s with
  | nil => exact along_pure start
  | cons x xs ih => exact along_bind (along_mono (round b x s start) fun c t inv => ih inv)

/-- Every step that `m` makes satisfies `E`, wherever it starts. -/
def Stepwise (E : Event L σ → Prop) (m : Prog L σ α) : Prop := ∀ s, Along E m (fun _ _ => True) s

theorem stepwise_pure (a : α) : Stepwise E (Pure.pure a : Prog L σ α) := fun _ => along_pure trivial

theorem stepwise_exit : Stepwise E (exit : Prog L σ α) := by
  intro s
  have exits : Ends (exit : Prog L σ α) s [] .exit s := ⟨trivial, 0, rfl⟩
  refine ⟨fun tr o t ends => ?_, fun _ _ _ _ => trivial⟩
  obtain ⟨rfl, _⟩ := ends_unique ends exits
  exact fun e mem => absurd mem List.not_mem_nil

theorem stepwise_act {l : L} {f : σ → α × σ} (event : ∀ s, E ⟨l, s, (f s).2⟩) :
    Stepwise E (act l f) := fun s => along_act (event s) trivial

theorem stepwise_bind {m : Prog L σ α} {k : α → Prog L σ β} (first : Stepwise E m)
    (rest : ∀ a, Stepwise E (k a)) : Stepwise E (m >>= k) :=
  fun s => along_bind (along_mono (first s) fun a t _ => rest a t)

theorem stepwise_read {k : σ → Prog L σ β} (rest : ∀ s, Stepwise E (k s)) :
    Stepwise E (read >>= k) := fun s => along_bind_read (rest s s)

theorem stepwise_ite {c : Prop} [Decidable c] {m k : Prog L σ α} (yes : Stepwise E m)
    (no : Stepwise E k) : Stepwise E (if c then m else k) :=
  fun s => along_ite (fun _ => yes s) (fun _ => no s)

theorem stepwise_loop {body : β → Prog L σ (β ⊕ α)} (round : ∀ b, Stepwise E (body b)) (b : β) :
    Stepwise E (loop body b) := by
  intro s
  apply along_loop (fun _ _ => True)
  · intro b t _
    apply along_mono (round b t)
    intro x u _
    cases x <;> trivial
  · trivial

theorem stepwise_fold {f : β → α → Prog L σ β} (round : ∀ b x, Stepwise E (f b x)) (b : β)
    (xs : List α) : Stepwise E (fold f b xs) :=
  fun _ => along_fold (fun _ _ => True) (fun b x s _ => round b x s) xs trivial

end Stepping

def Never (m : Prog L σ α) (s : σ) : Prop := ∀ tr o t, ¬ m.Ends s tr o t

theorem run_of_ends {m : Prog L σ α} {s t : σ} {tr : List (Event L σ)} {o : Outcome α} {n : Nat}
    (ends : m.Ends s tr o t) (ended : (m.run n s).2.1.Ended) : m.run n s = (tr, o, t) := by
  obtain ⟨rfl, rfl, rfl⟩ := ends_unique ⟨ended, n, rfl⟩ ends
  rfl

theorem never_of_runs {m : Prog L σ α} {s : σ} (runs : ∀ n, ¬ (m.run n s).2.1.Ended) : Never m s := by
  rintro tr o t ⟨ended, n, run⟩
  exact runs n (by rw [run]; exact ended)

theorem never_after {m : Prog L σ α} {k : α → Prog L σ β} {s t : σ} {tr : List (Event L σ)} {a : α}
    (ends : m.Ends s tr (.done a) t) (never : Never (k a) t) : Never (m >>= k) s := by
  rintro tr' o u ⟨ended, n, run⟩
  obtain ⟨_, j, run'⟩ := ends
  have whole := (m >>= k).run_mono (Nat.le_max_left n j) (s := s) (by rw [run]; exact ended)
  have part := m.run_mono (Nat.le_max_right n j) (s := s) (by rw [run']; trivial)
  change bindRun m k (max n j) s = _ at whole
  simp only [bindRun] at whole
  rw [part, run', run] at whole
  exact never _ _ _ ⟨ended, max n j, Prod.ext rfl (Prod.ext_iff.mp whole).2⟩

theorem never_first {m : Prog L σ α} {k : α → Prog L σ β} {s : σ} (never : Never m s) :
    Never (m >>= k) s := by
  rintro tr o u ⟨ended, n, run⟩
  change bindRun m k n s = _ at run
  simp only [bindRun] at run
  rcases part : m.run n s with ⟨tr', out, t⟩
  rw [part] at run
  cases out with
  | done a => exact never tr' (.done a) t ⟨trivial, n, part⟩
  | exit => exact never tr' .exit t ⟨trivial, n, part⟩
  | fuel =>
    simp only [Prod.mk.injEq] at run
    rw [← run.2.1] at ended
    exact ended

theorem never_read {k : σ → Prog L σ α} {s : σ} (never : Never (k s) s) : Never (read >>= k) s :=
  never_after ⟨trivial, 0, rfl⟩ never

theorem never_else {c : Prop} [Decidable c] {m k : Prog L σ α} {s : σ} (no : ¬ c)
    (never : Never k s) : Never (if c then m else k) s := by
  rwa [if_neg no]

/-- The rule for a loop without end: an invariant, and every round goes round again. -/
theorem loop_never (I : β → σ → Prop) {body : β → Prog L σ (β ⊕ α)}
    (round : ∀ b s, I b s → Wp (fun _ => True) (body b) (fun x t => ∃ c, x = .inl c ∧ I c t) s)
    {b : β} {s : σ} (start : I b s) : Never (loop body b) s := by
  apply never_of_runs
  intro n
  induction n generalizing b s with
  | zero => exact id
  | succ n ih =>
    obtain ⟨tr, x, t, ends, _, c, rfl, next⟩ := round b s start
    change ¬ (loopRun body (n + 1) b s).2.1.Ended
    rw [loopRun]
    by_cases ended : ((body b).run n s).2.1.Ended
    · rw [run_of_ends ends ended]
      exact ih next
    · rcases run : (body b).run n s with ⟨tr', o, u⟩
      rw [run] at ended
      cases o with
      | fuel => exact id
      | done y => exact absurd trivial ended
      | exit => exact absurd trivial ended

end StepProgram
