import EvalMaxSat.Replays
import EvalMaxSat.Stratification

/-!
The choice of the next bound as a walk of iterators over the index: which iterators are
stepped back and read, and when one is stepped back from the first bucket.
-/
namespace EvalMaxSat
open Literals OrderedContainers EvalMaxSAT StepProgram

variable {K : Type} {env : Env K} {s t u : EvalMaxSAT K} {m : WeightMap} {previous bound n : Nat}

/-- What is done with an iterator, which is the number of buckets before it. -/
inductive Touch where
  | decrement (index : WeightMap) (it : Nat)
  | dereference (index : WeightMap) (it : Nat)

/-- The first bucket is not stepped back from, and what is read is a bucket. -/
def Touch.Safe : Touch → Prop
  | .decrement index it => 0 < it ∧ it ≤ index.size
  | .dereference index it => it < index.size

instance : DecidablePred Touch.Safe
  | .decrement _ _ => inferInstanceAs (Decidable (_ ∧ _))
  | .dereference _ _ => inferInstanceAs (Decidable (_ < _))

structure Walk where
  touches : List Touch
  bound : Option Nat
  index : WeightMap

def Walk.after (touches : List Touch) (w : Walk) : Walk := { w with touches := touches ++ w.touches }

def Walk.Safe (w : Walk) : Prop := ∀ touch ∈ w.touches, touch.Safe

instance (w : Walk) : Decidable w.Safe :=
  inferInstanceAs (Decidable (∀ touch ∈ w.touches, touch.Safe))

def lowerBound (m : WeightMap) (k : Nat) : Nat := (m.below k).length

/-- `it--`; from the first bucket the library may give anything. -/
def decremented (env : Env K) (m : WeightMap) (it : Nat) : Nat :=
  if it = 0 then if env.beginDecrement m then 0 else m.size else it - 1

/-- The loop of `chooseNextMinWeight`, where `previous` is the bound it is called with. -/
def walkFrom (env : Env K) (previous : Nat) : Nat → WeightMap → Nat → Walk
  | 0, m, _ => ⟨[], none, m⟩
  | fuel + 1, m, bound =>
    if lowerBound m bound = 0 then ⟨[], some 1, m⟩
    else
      let it := lowerBound m bound - 1
      match m.entries[it]? with
      | none => ⟨[.decrement m (lowerBound m bound)], some 1, m⟩
      | some (w, lits) =>
        if lits.elems = [] then
          let index := m.eraseKey w
          if index.size ≤ 1 then
            ⟨[.decrement m (lowerBound m bound), .dereference m it], some 1, index⟩
          else
            (walkFrom env previous fuel index bound).after
              [.decrement m (lowerBound m bound), .dereference m it]
        else
          let it2 := decremented env m it
          match m.entries[it2]? with
          | none =>
            ⟨[.decrement m (lowerBound m bound), .dereference m it, .decrement m it], some 1, m⟩
          | some (w2, _) =>
            if env.belowHalf w2 previous then
              ⟨[.decrement m (lowerBound m bound), .dereference m it, .decrement m it,
                .dereference m it2, .dereference m it], some w, m⟩
            else
              (walkFrom env previous fuel m w).after
                [.decrement m (lowerBound m bound), .dereference m it, .decrement m it,
                  .dereference m it2, .dereference m it]

def walk (env : Env K) (m : WeightMap) (bound : Nat) : Walk :=
  if m.size ≤ 1 then ⟨[], some 1, m⟩ else walkFrom env bound (m.size + 1) m bound

/-- The walk comes to the first bucket and finds literals there: it is not the only bucket
then, and no bucket before it was light enough to stop at. -/
def Falls (env : Env K) (previous : Nat) (m : WeightMap) (bound : Nat) : Prop :=
  ∃ first rest, m.below bound = first :: rest ∧ first.2.elems ≠ [] ∧
    (first :: rest).IsChain (fun d e => e.2.elems ≠ [] → env.belowHalf d.1 previous = false) ∧
    (m.notBelow bound ≠ [] ∨ ∃ e ∈ rest, e.2.elems ≠ [])

section Shapes
variable {front : List (Nat × OSet Int)} {w w2 : Nat} {lits lits2 : OSet Int}

theorem size_split (m : WeightMap) (k : Nat) :
    m.size = (m.below k).length + (m.notBelow k).length := by
  rw [OMap.size, OMap.entries_split m k, List.length_append]

theorem entry_last (shape : m.below bound = front ++ [(w, lits)]) :
    m.entries[front.length]? = some (w, lits) := by
  rw [OMap.entries_split m bound, shape, List.append_assoc,
    List.getElem?_append_right (Nat.le_refl _), Nat.sub_self]
  rfl

theorem entry_previous (shape : m.below bound = (front ++ [(w2, lits2)]) ++ [(w, lits)]) :
    m.entries[front.length]? = some (w2, lits2) := by
  rw [OMap.entries_split m bound, shape, List.append_assoc, List.append_assoc,
    List.getElem?_append_right (Nat.le_refl _), Nat.sub_self]
  rfl

theorem key_below (shape : m.below bound = front ++ [(w, lits)]) : w < bound := by
  have mem : (w, lits) ∈ m.below bound := by rw [shape]; simp
  simpa [OMap.below] using (List.mem_filter.mp mem).2

theorem size_eraseLast (shape : m.below bound = front ++ [(w, lits)]) :
    (m.eraseKey w).size + 1 = m.size := by
  have erased := OMap.below_eraseKey shape
  have above := OMap.notBelow_eraseKey (m := m) (e := (w, lits)) (key_below shape)
  simp only at erased above
  rw [size_split (m.eraseKey w) bound, size_split m bound, erased, above, shape,
    List.length_append, List.length_singleton]
  omega

theorem walkFrom_none (shape : m.below bound = []) :
    walkFrom env previous (n + 1) m bound = ⟨[], some 1, m⟩ := by
  have zero : lowerBound m bound = 0 := by rw [lowerBound, shape]; rfl
  rw [walkFrom, if_pos zero]

theorem walkFrom_last (shape : m.below bound = front ++ [(w, lits)]) :
    walkFrom env previous (n + 1) m bound =
      if lits.elems = [] then
        if (m.eraseKey w).size ≤ 1 then
          ⟨[.decrement m (front.length + 1), .dereference m front.length], some 1, m.eraseKey w⟩
        else
          (walkFrom env previous n (m.eraseKey w) bound).after
            [.decrement m (front.length + 1), .dereference m front.length]
      else
        match m.entries[decremented env m front.length]? with
        | none => ⟨[.decrement m (front.length + 1), .dereference m front.length,
            .decrement m front.length], some 1, m⟩
        | some (w2, _) =>
          if env.belowHalf w2 previous then
            ⟨[.decrement m (front.length + 1), .dereference m front.length,
              .decrement m front.length, .dereference m (decremented env m front.length),
              .dereference m front.length], some w, m⟩
          else
            (walkFrom env previous n m w).after
              [.decrement m (front.length + 1), .dereference m front.length,
                .decrement m front.length, .dereference m (decremented env m front.length),
                .dereference m front.length] := by
  have count : lowerBound m bound = front.length + 1 := by
    rw [lowerBound, shape, List.length_append]; rfl
  rw [walkFrom]
  simp only [count, Nat.add_one_ne_zero, if_false, Nat.add_sub_cancel, entry_last shape]

end Shapes

section Falling
variable {front : List (Nat × OSet Int)} {w w2 : Nat} {lits lits2 : OSet Int}

theorem falls_none (shape : m.below bound = []) : ¬ Falls env previous m bound := by
  rintro ⟨first, rest, eq, _⟩
  rw [shape] at eq
  simp at eq

theorem falls_first (shape : m.below bound = [(w, lits)]) (nonempty : lits.elems ≠ [])
    (several : 1 < m.size) : Falls env previous m bound := by
  refine ⟨(w, lits), [], shape, nonempty, List.isChain_singleton _, Or.inl ?_⟩
  intro none
  rw [size_split m bound, shape, none] at several
  simp at several

theorem falls_empty (shape : m.below bound = front ++ [(w, lits)]) (empty : lits.elems = []) :
    Falls env previous m bound ↔ Falls env previous (m.eraseKey w) bound := by
  have erased := OMap.below_eraseKey shape
  have above := OMap.notBelow_eraseKey (m := m) (e := (w, lits)) (key_below shape)
  simp only at erased above
  constructor
  · rintro ⟨first, rest, eq, nonempty, chain, more⟩
    rw [shape] at eq
    cases front with
    | nil =>
      rw [List.nil_append, List.cons.injEq] at eq
      rw [← eq.1] at nonempty
      exact absurd empty nonempty
    | cons f r =>
      rw [List.cons_append, List.cons.injEq] at eq
      obtain ⟨rfl, rfl⟩ := eq
      refine ⟨f, r, erased, nonempty, ?_, ?_⟩
      · rw [← List.cons_append] at chain
        exact (List.isChain_append.mp chain).1
      · rw [above]
        refine more.imp_right ?_
        rintro ⟨e, mem, full⟩
        rcases List.mem_append.mp mem with mem | mem
        · exact ⟨e, mem, full⟩
        · rw [List.mem_singleton.mp mem] at full
          exact absurd empty full
  · rintro ⟨first, rest, eq, nonempty, chain, more⟩
    rw [erased] at eq
    rw [eq] at shape
    refine ⟨first, rest ++ [(w, lits)], shape, nonempty, ?_, ?_⟩
    · rw [← List.cons_append]
      refine List.isChain_append.mpr ⟨chain, List.isChain_singleton _, ?_⟩
      intro d _ e last full
      rw [← Option.mem_some.mp last] at full
      exact absurd empty full
    · rw [above] at more
      refine more.imp_right ?_
      rintro ⟨e, mem, full⟩
      exact ⟨e, List.mem_append_left _ mem, full⟩

theorem falls_full (shape : m.below bound = (front ++ [(w2, lits2)]) ++ [(w, lits)])
    (nonempty : lits.elems ≠ []) : Falls env previous m bound ↔
      env.belowHalf w2 previous = false ∧ Falls env previous m w := by
  have below := OMap.below_last shape
  have above : m.notBelow w ≠ [] := by
    apply List.ne_nil_of_mem (a := (w, lits))
    refine List.mem_filter.mpr ⟨?_, by simp⟩
    rw [OMap.entries_split m bound, shape]
    simp
  constructor
  · rintro ⟨first, rest, eq, full, chain, _⟩
    rw [← eq, shape] at chain
    obtain ⟨left, _, last⟩ := List.isChain_append.mp chain
    refine ⟨last (w2, lits2) (by simp) (w, lits) (by simp) nonempty, ?_⟩
    obtain ⟨f, r, split⟩ := List.exists_cons_of_ne_nil (by simp : front ++ [(w2, lits2)] ≠ [])
    rw [split] at left
    have same : f = first := by
      rw [shape, split, List.cons_append] at eq
      exact (List.cons.inj eq).1
    exact ⟨f, r, below.trans split, by rw [same]; exact full, left, Or.inl above⟩
  · rintro ⟨heavy, first, rest, eq, full, chain, _⟩
    simp only at below
    rw [below] at eq
    rw [eq] at shape
    refine ⟨first, rest ++ [(w, lits)], shape, full, ?_, Or.inr ⟨(w, lits), by simp, nonempty⟩⟩
    rw [← List.cons_append]
    refine List.isChain_append.mpr ⟨chain, List.isChain_singleton _, ?_⟩
    intro d first_d e last _
    rw [← eq] at first_d
    simp only [List.getLast?_append, List.getLast?_singleton, Option.some_or, Option.mem_some] at first_d
    rw [← first_d]
    exact heavy

end Falling

section Walks
variable {front : List (Nat × OSet Int)} {w : Nat} {lits : OSet Int}

theorem safe_after {touches : List Touch} {x : Walk} (good : ∀ touch ∈ touches, touch.Safe) :
    (x.after touches).Safe ↔ x.Safe := by
  constructor
  · intro safe touch mem
    exact safe touch (List.mem_append_right _ mem)
  · intro safe touch mem
    rcases List.mem_append.mp mem with mem | mem
    · exact good touch mem
    · exact safe touch mem

theorem falls_several (falls : Falls env previous m bound) : 1 < m.size := by
  obtain ⟨first, rest, eq, _, _, more⟩ := falls
  rw [size_split m bound, eq, List.length_cons]
  rcases more with more | ⟨e, mem, _⟩
  · have := List.length_pos_iff.mpr more
    omega
  · have := List.length_pos_of_mem mem
    omega

theorem decremented_behind {rest : List (Nat × OSet Int)} (length : front.length = rest.length + 1) :
    decremented env m front.length = rest.length := by
  rw [decremented, if_neg (by omega), length, Nat.add_sub_cancel]

/-- A first bucket with literals is stepped back from. -/
theorem walkFrom_first (shape : m.below bound = [(w, lits)]) (full : lits.elems ≠ []) :
    ¬ (walkFrom env previous (n + 1) m bound).Safe := by
  intro safe
  have alone : m.below bound = [] ++ [(w, lits)] := shape
  have stepped : Touch.decrement m 0 ∈ (walkFrom env previous (n + 1) m bound).touches := by
    rw [walkFrom_last alone, if_neg full]
    split
    · simp
    · split <;> simp [Walk.after]
  exact absurd (safe _ stepped).1 (Nat.lt_irrefl 0)

theorem walkFrom_safe (enough : (m.below bound).length < n) (several : 1 < m.size) :
    (walkFrom env previous n m bound).Safe ↔ ¬ Falls env previous m bound := by
  induction n generalizing m bound with
  | zero => omega
  | succ n ih =>
    rcases List.eq_nil_or_concat (m.below bound) with shape | ⟨front, ⟨w, lits⟩, shape⟩
    · rw [walkFrom_none shape]
      have none : ¬ Falls env previous m bound := falls_none shape
      simp [Walk.Safe, none]
    rw [List.concat_eq_append] at shape
    have inside : front.length < m.size := by
      rw [size_split m bound, shape, List.length_append, List.length_singleton]
      omega
    have fuel : front.length < n := by
      rw [shape, List.length_append, List.length_singleton] at enough
      omega
    have reach : ∀ touch ∈ [Touch.decrement m (front.length + 1), .dereference m front.length],
        touch.Safe := by
      simp [Touch.Safe]
      omega
    rw [walkFrom_last shape]
    by_cases empty : lits.elems = []
    · have smaller := size_eraseLast shape
      have erased := OMap.below_eraseKey shape
      have above := OMap.notBelow_eraseKey (m := m) (e := (w, lits)) (key_below shape)
      simp only at erased above
      rw [if_pos empty, falls_empty shape empty]
      by_cases small : (m.eraseKey w).size ≤ 1
      · rw [if_pos small]
        refine iff_of_true reach fun falls => ?_
        have := falls_several falls
        omega
      · rw [if_neg small, safe_after reach]
        exact ih (by rw [erased]; exact fuel) (by omega)
    · rcases List.eq_nil_or_concat front with none | ⟨rest, ⟨w2, lits2⟩, concat⟩
      · rw [none, List.nil_append] at shape
        rw [← walkFrom_last (by rw [none]; exact shape)]
        exact iff_of_false (walkFrom_first shape empty)
          (not_not_intro (falls_first shape empty several))
      · rw [List.concat_eq_append] at concat
        rw [concat] at shape
        have length : front.length = rest.length + 1 := by rw [concat, List.length_append]; rfl
        have all : ∀ touch ∈ [Touch.decrement m (front.length + 1), .dereference m front.length,
            .decrement m front.length, .dereference m rest.length, .dereference m front.length],
            touch.Safe := by
          simp [Touch.Safe]
          omega
        rw [if_neg empty, decremented_behind length, entry_previous shape, falls_full shape empty]
        simp only
        by_cases light : env.belowHalf w2 previous = true
        · rw [if_pos light]
          refine iff_of_true all ?_
          rintro ⟨heavy, _⟩
          rw [light] at heavy
          simp at heavy
        · have heavy : env.belowHalf w2 previous = false := by simpa using light
          have below := OMap.below_last shape
          simp only at below
          rw [if_neg light, safe_after all, ih (by rw [below, ← concat]; exact fuel) several]
          simp [heavy]

theorem walk_safe (env : Env K) (m : WeightMap) (bound : Nat) :
    (walk env m bound).Safe ↔ ¬ Falls env bound m bound := by
  rw [walk]
  by_cases small : m.size ≤ 1
  · rw [if_pos small]
    refine iff_of_true (by simp [Walk.Safe]) fun falls => ?_
    have := falls_several falls
    omega
  · rw [if_neg small]
    refine walkFrom_safe ?_ (by omega)
    have := size_split m bound
    omega

end Walks

section Agreement

/-- The body of the loop of `chooseNextMinWeight`. -/
def chooseRound (env : Env K) (previous minWeight : Nat) : Program K (Nat ⊕ Nat) := do
  let s ← .read
  match s.mapWeight2Assum.before? minWeight with
  | none => return .inr 1
  | some (w, lits) => do
    if lits.elems = [] then
      .act .dropBucket fun s =>
        ((), { s with mapWeight2Assum := s.mapWeight2Assum.eraseKey w })
      let s ← .read
      if s.mapWeight2Assum.size ≤ 1 then return .inr 1
      return .inl minWeight
    else
      match stepBack env s.mapWeight2Assum w with
      | none => return .inr 1
      | some w2 =>
        if env.belowHalf w2 previous then return .inr w
        return .inl w

theorem chooseNextMinWeight_eq (env : Env K) (bound : Nat) : chooseNextMinWeight env bound = (do
    let s ← .read
    if s.mapWeight2Assum.size ≤ 1 then return 1
    .loop (chooseRound env bound) bound) := rfl

/-- The walk finds what the program finds, and leaves the same index. -/
def Agrees (s : EvalMaxSAT K) (x : Walk) (w : Nat) (t : EvalMaxSAT K) : Prop :=
  x.bound = some w ∧ t = { s with mapWeight2Assum := x.index }

section StepsBack
variable {front : List (Nat × OSet Int)} {w w2 : Nat} {lits lits2 : OSet Int}

theorem stepBack_first (shape : m.below bound = [(w, lits)]) :
    stepBack env m w = if env.beginDecrement m then some w else none := by
  have alone : m.below bound = [] ++ [(w, lits)] := shape
  have below := OMap.below_last alone
  simp only at below
  rw [stepBack, OMap.before?_below, below]
  rfl

theorem stepBack_previous (shape : m.below bound = (front ++ [(w2, lits2)]) ++ [(w, lits)]) :
    stepBack env m w = some w2 := by
  have below := OMap.below_last shape
  simp only at below
  rw [stepBack, OMap.before?_below, below, List.getLast?_append, List.getLast?_singleton,
    Option.some_or]

end StepsBack

theorem wp_chooseRounds (enough : (s.mapWeight2Assum.below bound).length < n) :
    Wp (fun _ => True) (.loop (chooseRound env previous) bound)
      (Agrees s (walkFrom env previous n s.mapWeight2Assum bound)) s := by
  induction n generalizing s bound with
  | zero => omega
  | succ n ih =>
    apply wp_loop_once
    apply wp_bind_read
    rw [OMap.before?_below]
    rcases List.eq_nil_or_concat (s.mapWeight2Assum.below bound) with shape | ⟨front, ⟨w, lits⟩, shape⟩
    · rw [walkFrom_none shape, shape]
      exact wp_pure ⟨rfl, rfl⟩
    rw [List.concat_eq_append] at shape
    have fuel : front.length < n := by
      rw [shape, List.length_append, List.length_singleton] at enough
      omega
    rw [walkFrom_last shape, shape, List.getLast?_append, List.getLast?_singleton, Option.some_or]
    by_cases empty : lits.elems = []
    · rw [if_pos empty]
      simp only [empty, if_true]
      have erased := OMap.below_eraseKey shape
      apply wp_bind
      refine wp_act trivial ?_
      apply wp_bind_read
      refine wp_ite (fun small => wp_pure ?_) (fun large => wp_pure ?_)
      · rw [if_pos (by exact small)]
        exact ⟨rfl, rfl⟩
      · rw [if_neg (by exact large)]
        have fewer : ((s.mapWeight2Assum.eraseKey w).below bound).length < n := by
          simp only at erased
          rw [erased]
          exact fuel
        apply wp_mono (ih (s := { s with mapWeight2Assum := s.mapWeight2Assum.eraseKey w }) fewer)
        rintro v t ⟨found, rfl⟩
        exact ⟨found, rfl⟩
    · rw [if_neg empty]
      simp only [empty, if_false]
      have below := OMap.below_last shape
      simp only at below
      have fewer : (s.mapWeight2Assum.below w).length < n := by rw [below]; exact fuel
      rcases List.eq_nil_or_concat front with none | ⟨rest, ⟨w2, lits2⟩, concat⟩
      · rw [none, List.nil_append] at shape
        have first : s.mapWeight2Assum.entries[([] : List (Nat × OSet Int)).length]? = some (w, lits) :=
          entry_last shape
        rw [stepBack_first shape, none, List.length_nil, decremented, if_pos rfl]
        by_cases stays : env.beginDecrement s.mapWeight2Assum = true
        · rw [if_pos stays, if_pos stays]
          rw [List.length_nil] at first
          rw [first]
          simp only
          refine wp_ite (fun light => wp_pure ?_) (fun heavy => wp_pure ?_)
          · rw [if_pos light]
            exact ⟨rfl, rfl⟩
          · rw [if_neg heavy]
            apply wp_mono (ih fewer)
            rintro v t ⟨found, same⟩
            exact ⟨found, same⟩
        · have past : s.mapWeight2Assum.entries[s.mapWeight2Assum.size]? = Option.none :=
            List.getElem?_eq_none (Nat.le_refl _)
          rw [if_neg stays, if_neg stays, past]
          exact wp_pure ⟨rfl, rfl⟩
      · rw [List.concat_eq_append] at concat
        rw [concat] at shape
        have length : front.length = rest.length + 1 := by rw [concat, List.length_append]; rfl
        rw [stepBack_previous shape, decremented_behind length, entry_previous shape]
        simp only
        refine wp_ite (fun light => wp_pure ?_) (fun heavy => wp_pure ?_)
        · rw [if_pos light]
          exact ⟨rfl, rfl⟩
        · rw [if_neg heavy]
          apply wp_mono (ih fewer)
          rintro v t ⟨found, same⟩
          exact ⟨found, same⟩

theorem walk_agrees (env : Env K) (s : EvalMaxSAT K) (bound : Nat) :
    Wp (fun _ => True) (chooseNextMinWeight env bound) (Agrees s (walk env s.mapWeight2Assum bound))
      s := by
  rw [chooseNextMinWeight_eq]
  apply wp_bind_read
  refine wp_ite (fun small => wp_pure ?_) (fun large => ?_)
  · rw [walk, if_pos small]
    exact ⟨rfl, rfl⟩
  · rw [walk, if_neg large]
    apply wp_chooseRounds
    have := size_split s.mapWeight2Assum bound
    omega

end Agreement

section Solves

/-- A solve from `s` comes to a round of its main loop in state `t`. -/
inductive ComesTo (env : Env K) (s : EvalMaxSAT K) :
    LocalOptimizer2 → Stratum → EvalMaxSAT K → Prop
  | first {tr t tr' w u} : (prologue env).Ends s.started tr (.done none) t →
      (chooseNextMinWeight env (u64 (((t.mapWeight2Assum.last?.map Prod.fst).getD 0 : Nat) + 1))).Ends
        t tr' (.done w) u → ComesTo env s ⟨t.poids, t.cost⟩ ⟨w, u.initAssum w⟩ u
  | next {lo st t tr st' u} : ComesTo env s lo st t →
      (mainRound env lo st).Ends t tr (.done (.inl st')) u → ComesTo env s lo st' u

/-- A solve from `s` calls `chooseNextMinWeight` with that bound in state `t`. -/
inductive ChooseCall (env : Env K) (s : EvalMaxSAT K) : EvalMaxSAT K → Nat → Prop
  | first {tr t} : (prologue env).Ends s.started tr (.done none) t →
      ChooseCall env s t (u64 (((t.mapWeight2Assum.last?.map Prod.fst).getD 0 : Nat) + 1))
  | later {lo st t tr u} : ComesTo env s lo st t → t.cost < t.solutionCost →
      (solverSolve env st.assum.elems).Ends t tr (.done true) u → st.minWeightToConsider ≠ 1 →
      ChooseCall env s u st.minWeightToConsider

/-- The walk is what the program does, and it is safe unless it falls off the first bucket: the
walks of a solve are all safe where none of its calls makes it fall. -/
theorem solve_walks_safe (env : Env K) (s : EvalMaxSAT K) :
    (∀ t bound, ∃ tr w, (chooseNextMinWeight env bound).Ends t tr (.done w)
      { t with mapWeight2Assum := (walk env t.mapWeight2Assum bound).index } ∧
      (walk env t.mapWeight2Assum bound).bound = some w) ∧
    (∀ t : EvalMaxSAT K, ∀ bound, (walk env t.mapWeight2Assum bound).Safe ↔
      ¬ Falls env bound t.mapWeight2Assum bound) ∧
    ((∀ t bound, ChooseCall env s t bound → (walk env t.mapWeight2Assum bound).Safe) ↔
      ∀ t bound, ChooseCall env s t bound → ¬ Falls env bound t.mapWeight2Assum bound) := by
  refine ⟨fun t bound => ?_, fun t bound => walk_safe env _ bound, ?_⟩
  · obtain ⟨tr, w, u, ends, _, found, rfl⟩ := walk_agrees env t bound
    exact ⟨tr, w, ends, found⟩
  · constructor
    · intro safe t bound call
      exact (walk_safe env _ bound).mp (safe t bound call)
    · intro stays t bound call
      exact (walk_safe env _ bound).mpr (stays t bound call)

def unevenScript : List Call :=
  [.update .newVar, .update .newVar, .update (.addClause [1] (some 2)),
    .update (.addClause [2] (some 3))]

theorem walk_falls : ¬ ∀ (env : Env Unit) (d : Story) (path : List (EvalMaxSAT Unit))
    (s t : EvalMaxSAT Unit) (bound : Nat), env.Sound → History env () fittingCall d path s →
    ChooseCall env s t bound → (walk env t.mapWeight2Assum bound).Safe := by
  intro claim
  obtain ⟨d, path, s, history, test⟩ := history_of_replay referenceBackEnd () fittingCall 60
    unevenScript (fun r => endTest (prologue referenceBackEnd) 60 (fun _ early t =>
      early.isNone && decide (¬ (walk referenceBackEnd t.mapWeight2Assum (u64
        (((t.mapWeight2Assum.last?.map Prod.fst).getD 0 : Nat) + 1))).Safe)) r.2.2.started)
    (by decide +kernel)
  obtain ⟨tr, early, t, ends, found⟩ := ends_of_endTest test
  obtain ⟨none, wrong⟩ := (Bool.and_eq_true _ _).mp found
  rw [Option.isNone_iff_eq_none.mp none] at ends
  exact of_decide_eq_true wrong (claim _ d path s t _ reference_sound history (.first ends))

end Solves
end EvalMaxSat
