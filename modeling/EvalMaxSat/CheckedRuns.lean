import Mathlib.Data.List.Basic

/-!
Computations that may fault, as `Option`: `none` is an access outside an array or the read
of a value never written. The rules show that a computation ends without a fault.
-/
namespace CheckedRuns
variable {α β : Type}

/-- The computation ends without a fault, in a value that satisfies `Q`. -/
def Gives (x : Option α) (Q : α → Prop) : Prop := ∃ a, x = some a ∧ Q a

theorem gives_some {a : α} {Q : α → Prop} (h : Q a) : Gives (some a) Q := ⟨a, rfl, h⟩

theorem gives_mono {x : Option α} {Q R : α → Prop} (h : Gives x Q) (weaker : ∀ a, Q a → R a) :
    Gives x R := by
  obtain ⟨a, same, post⟩ := h
  exact ⟨a, same, weaker a post⟩

theorem gives_bind {x : Option α} {f : α → Option β} {Q : β → Prop}
    (h : Gives x fun a => Gives (f a) Q) : Gives (x >>= f) Q := by
  obtain ⟨a, same, b, next, post⟩ := h
  exact ⟨b, by rw [same]; exact next, post⟩

theorem gives_of_eq {x : Option α} {a : α} {Q : α → Prop} (same : x = some a) (h : Q a) :
    Gives x Q := ⟨a, same, h⟩

theorem gives_bind_of_eq {x : Option α} {a : α} {f : α → Option β} {Q : β → Prop}
    (same : x = some a) (h : Gives (f a) Q) : Gives (x >>= f) Q :=
  gives_bind (gives_of_eq same h)

theorem gives_ite {c : Prop} [Decidable c] {x y : Option α} {Q : α → Prop}
    (yes : c → Gives x Q) (no : ¬ c → Gives y Q) : Gives (if c then x else y) Q := by
  split
  · rename_i h; exact yes h
  · rename_i h; exact no h

/-- The rule for counted loops: `I` holds with the part of the list already passed. -/
theorem gives_fold (I : List α → β → Prop) {f : β → α → Option β} {l : List α}
    (round : ∀ before x after b, l = before ++ x :: after → I before b →
      Gives (f b x) (I (before ++ [x]))) {b : β} (start : I [] b) :
    Gives (l.foldlM f b) (I l) := by
  have rest : ∀ before after b, l = before ++ after → I before b →
      Gives (after.foldlM f b) (I l) := by
    intro before after
    induction after generalizing before with
    | nil =>
      intro b whole here
      rw [List.append_nil] at whole
      exact gives_some (whole ▸ here)
    | cons x after ih =>
      intro b whole here
      rw [List.foldlM_cons]
      apply gives_bind
      apply gives_mono (round before x after b whole here)
      intro c next
      exact ih (before ++ [x]) c (by rw [whole, List.append_assoc]; rfl) next
  exact rest [] l b rfl start

theorem gives_range_from (I : Nat → β → Prop) {f : β → Nat → Option β} {k n : Nat}
    (round : ∀ i b, k ≤ i → i < k + n → I i b → Gives (f b i) (I (i + 1)))
    {b : β} (start : I k b) : Gives ((List.range' k n).foldlM f b) (I (k + n)) := by
  induction n generalizing k b with
  | zero => exact gives_some start
  | succ n ih =>
    rw [List.range'_succ, List.foldlM_cons]
    apply gives_bind
    apply gives_mono (round k b (Nat.le_refl _) (by omega) start)
    intro c next
    have rest := ih (fun i d low high => round i d (by omega) (by omega)) next
    rwa [show k + 1 + n = k + (n + 1) by omega] at rest

theorem gives_range (I : Nat → β → Prop) {f : β → Nat → Option β} {n : Nat}
    (round : ∀ i b, i < n → I i b → Gives (f b i) (I (i + 1))) {b : β} (start : I 0 b) :
    Gives ((List.range n).foldlM f b) (I n) := by
  rw [List.range_eq_range']
  have all := gives_range_from I (k := 0) (n := n)
    (fun i b _ high => round i b (by omega)) start
  rwa [Nat.zero_add] at all

section Alike

/-- Two computations end without a fault, in the same value, and it satisfies `Q`. -/
def Alike (x y : Option α) (Q : α → Prop) : Prop := ∃ a, x = some a ∧ y = some a ∧ Q a

theorem alike_of_gives {x : Option α} {Q : α → Prop} (h : Gives x Q) : Alike x x Q := by
  obtain ⟨a, same, post⟩ := h
  exact ⟨a, same, same, post⟩

theorem gives_of_alike {x y : Option α} {Q : α → Prop} (h : Alike x y Q) : Gives x Q := by
  obtain ⟨a, same, _, post⟩ := h
  exact ⟨a, same, post⟩

theorem alike_eq {x y : Option α} {Q : α → Prop} (h : Alike x y Q) : x = y := by
  obtain ⟨a, left, right, _⟩ := h
  rw [left, right]

theorem alike_some {a : α} {Q : α → Prop} (h : Q a) : Alike (some a) (some a) Q := ⟨a, rfl, rfl, h⟩

theorem alike_mono {x y : Option α} {Q R : α → Prop} (h : Alike x y Q)
    (weaker : ∀ a, Q a → R a) : Alike x y R := by
  obtain ⟨a, left, right, post⟩ := h
  exact ⟨a, left, right, weaker a post⟩

theorem alike_bind {x y : Option α} {f g : α → Option β} {Q : β → Prop}
    (h : Alike x y fun a => Alike (f a) (g a) Q) : Alike (x >>= f) (y >>= g) Q := by
  obtain ⟨a, left, right, b, left', right', post⟩ := h
  exact ⟨b, by rw [left]; exact left', by rw [right]; exact right', post⟩

theorem alike_bind_same {x : Option α} {f g : α → Option β} {P : α → Prop} {Q : β → Prop}
    (h : Gives x P) (next : ∀ a, P a → Alike (f a) (g a) Q) : Alike (x >>= f) (x >>= g) Q :=
  alike_bind (alike_mono (alike_of_gives h) next)

theorem alike_bind_of_eq {x : Option α} {a : α} {f g : α → Option β} {Q : β → Prop}
    (same : x = some a) (h : Alike (f a) (g a) Q) : Alike (x >>= f) (x >>= g) Q :=
  alike_bind ⟨a, same, same, h⟩

theorem alike_ite {c : Prop} [Decidable c] {x y x' y' : Option α} {Q : α → Prop}
    (yes : c → Alike x y Q) (no : ¬ c → Alike x' y' Q) :
    Alike (if c then x else x') (if c then y else y') Q := by
  split
  · rename_i h; exact yes h
  · rename_i h; exact no h

end Alike

section Partial

/-- If the computation ends without a fault, its value satisfies `Q`. -/
def Yields (x : Option α) (Q : α → Prop) : Prop := ∀ a, x = some a → Q a

theorem yields_some {a : α} {Q : α → Prop} (h : Q a) : Yields (some a) Q := by
  intro b same
  rw [← Option.some.inj same]
  exact h

theorem yields_bind {x : Option α} {f : α → Option β} {Q : β → Prop}
    (h : ∀ a, x = some a → Yields (f a) Q) : Yields (x >>= f) Q := by
  intro b run
  obtain ⟨a, first, second⟩ := Option.bind_eq_some_iff.mp run
  exact h a first b second

theorem yields_ite {c : Prop} [Decidable c] {x y : Option α} {Q : α → Prop}
    (yes : c → Yields x Q) (no : ¬ c → Yields y Q) : Yields (if c then x else y) Q := by
  split
  · rename_i h; exact yes h
  · rename_i h; exact no h

end Partial

end CheckedRuns
