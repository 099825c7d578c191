import Mathlib.Tactic

/-!
Streams that are read with one character of lookahead, and readers that do not see how a stream
keeps what is left.
-/
namespace InputStreams

class InputStream (B : Type) where
  peek : B → Option Nat
  advance : B → B
  left : B → Nat
  advance_left : ∀ b c, peek b = some c → left (advance b) < left b

open InputStream

instance : InputStream (List Nat) where
  peek := List.head?
  advance := List.tail
  left := List.length
  advance_left := by
    intro b c next
    cases b with
    | nil => simp at next
    | cons d b => exact Nat.lt_succ_self b.length

variable {B C α β ε : Type} [InputStream B] [InputStream C]

def nextIs (p : Nat → Bool) (b : B) : Bool := (peek b).any p

/-- `while(p(*in)) { a = f(a, *in); ++in; }`. -/
def scan (p : Nat → Bool) (f : α → Nat → α) (a : α) (b : B) : α × B :=
  match _next : peek b with
  | some c => if p c then scan p f (f a c) (advance b) else (a, b)
  | none => (a, b)
termination_by left b
decreasing_by exact advance_left b c _next

section Scan
variable {p : Nat → Bool} {f : α → Nat → α} {a : α} {b : B} {x : Nat} {word rest : List Nat}

theorem scan_none (ended : peek b = none) : scan p f a b = (a, b) := by
  rw [scan]
  split
  · rename_i c next
    rw [ended] at next
    simp at next
  · rfl

theorem scan_some (next : peek b = some x) :
    scan p f a b = if p x then scan p f (f a x) (advance b) else (a, b) := by
  rw [scan]
  split
  · rename_i c next'
    rw [next] at next'
    rw [Option.some.inj next']
  · rename_i ended
    rw [next] at ended
    simp at ended

theorem scan_left (p : Nat → Bool) (f : α → Nat → α) (a : α) (b : B) :
    left (scan p f a b).2 ≤ left b := by
  induction h : left b using Nat.strongRecOn generalizing a b with
  | ind n ih =>
    cases next : peek b with
    | none =>
      rw [scan_none next, h]
    | some c =>
      rw [scan_some next]
      have less := advance_left b c next
      split
      · have rest := ih _ (by omega) (f a c) (advance b) rfl
        omega
      · exact Nat.le_of_eq h

theorem scan_less (starts : nextIs p b = true) : left (scan p f a b).2 < left b := by
  cases next : peek b with
  | none =>
    rw [nextIs, next] at starts
    simp at starts
  | some c =>
    rw [nextIs, next, Option.any_some] at starts
    have less := advance_left b c next
    have rest := scan_left p f (f a c) (advance b)
    rw [scan_some next, if_pos starts]
    omega

theorem scan_map {p : Nat → Bool} {f : α → Nat → α} {k : β → Nat → β} (g : α → β)
    (maps : ∀ a c, p c = true → k (g a) c = g (f a c)) (a : α) (b : B) :
    scan p k (g a) b = (g (scan p f a b).1, (scan p f a b).2) := by
  induction h : left b using Nat.strongRecOn generalizing a b with
  | ind n ih =>
    cases next : peek b with
    | none => rw [scan_none next, scan_none next]
    | some c =>
      rw [scan_some next, scan_some next]
      have less := advance_left b c next
      by_cases taken : p c = true
      · rw [if_pos taken, if_pos taken, maps a c taken]
        exact ih _ (by omega) (f a c) (advance b) rfl
      · rw [if_neg taken, if_neg taken]

/-- On a word that is taken, a scan is a fold over its characters. -/
theorem scan_word (taken : ∀ c ∈ word, p c = true) (stops : nextIs p rest = false) :
    scan p f a (word ++ rest) = (word.foldl f a, rest) := by
  induction word generalizing a with
  | nil =>
    rw [List.nil_append]
    cases rest with
    | nil => exact scan_none rfl
    | cons c rest =>
      have refused : p c = false := stops
      rw [scan_some (x := c) rfl, refused]
      rfl
  | cons c word ih =>
    rw [List.cons_append, scan_some (x := c) rfl, if_pos (taken c (by simp))]
    exact ih (fun d mem => taken d (by simp [mem]))

end Scan

section Simulation

/-- Related streams show the same characters. -/
structure Simulates (R : B → C → Prop) : Prop where
  peek : ∀ {b c}, R b c → InputStream.peek b = InputStream.peek c
  advance : ∀ {b c x}, R b c → InputStream.peek b = some x →
    R (InputStream.advance b) (InputStream.advance c)

/-- Readers agree on related streams: the same result, and what is left is related again. -/
inductive Agree (R : B → C → Prop) : Except ε (α × B) → Except ε (α × C) → Prop
  | error (e : ε) : Agree R (.error e) (.error e)
  | ok {a : α} {b : B} {c : C} : R b c → Agree R (.ok (a, b)) (.ok (a, c))

variable {R : B → C → Prop} {b : B} {c : C} {p : Nat → Bool}

omit [InputStream B] [InputStream C] in
theorem agree_cases {x : Except ε (α × B)} {y : Except ε (α × C)} (agree : Agree R x y) :
    (∃ e, x = .error e ∧ y = .error e) ∨ ∃ a b c, x = .ok (a, b) ∧ y = .ok (a, c) ∧ R b c := by
  cases agree with
  | error e => exact Or.inl ⟨e, rfl, rfl⟩
  | ok related => exact Or.inr ⟨_, _, _, rfl, rfl, related⟩

theorem nextIs_simulates (sim : Simulates R) (related : R b c) : nextIs p b = nextIs p c := by
  rw [nextIs, nextIs, sim.peek related]

theorem scan_simulates (sim : Simulates R) (f : α → Nat → α) (a : α) (related : R b c) :
    (scan p f a b).1 = (scan p f a c).1 ∧ R (scan p f a b).2 (scan p f a c).2 := by
  induction h : left b using Nat.strongRecOn generalizing a b c with
  | ind n ih =>
    cases next : peek b with
    | none =>
      have next' : peek c = none := by rw [← sim.peek related, next]
      rw [scan_none next, scan_none next']
      exact ⟨rfl, related⟩
    | some x =>
      have next' : peek c = some x := by rw [← sim.peek related, next]
      rw [scan_some next, scan_some next']
      have less := advance_left b x next
      split
      · exact ih _ (by omega) (f a x) (sim.advance related next) rfl
      · exact ⟨rfl, related⟩

end Simulation
end InputStreams
