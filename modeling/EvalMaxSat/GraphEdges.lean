import EvalMaxSat.ExactPass
import EvalMaxSat.ReferenceBackEnd

/-!
Which edges the loop that builds the graph of the exact pass leaves behind, whatever
`propagate` answers. A failed literal gives its slot to the last one, and the edges of the
literal that moves stay where it was.
-/
namespace EvalMaxSat
open Literals OrderedContainers EvalMaxSAT StepProgram

variable {K : Type} {env : Env K} {s t : EvalMaxSAT K}

/-- The literals propagated so far with the answers, the latest first. -/
abbrev Propagations := List (Int × Option (List Int))

/-- The loop of `buildGraph`, entered with the literals of `start`, has come to slot `i`
after these propagations. -/
inductive Stands (env : Env K) (start : List Int) (s : EvalMaxSAT K) :
    Propagations → Nat → List Int → Conn → EvalMaxSAT K → Prop
  | entered : Stands env start s [] 0 start (fun _ _ => false) s
  | linked {log : Propagations} {i : Nat} {assumption prop : List Int} {conn : Conn}
      {t : EvalMaxSAT K} {solver : Solver_cadical K} {l : Int}
      (before : Stands env start s log i assumption conn t) (here : assumption[i]? = some l)
      (answer : t.solver.propagate env [l] = (some prop, solver)) :
      Stands env start s ((l, some prop) :: log) (i + 1) assumption
        (conn.linkAll assumption (· ≠ i) i prop) { t with solver := solver }
  | dropped {log : Propagations} {i : Nat} {assumption : List Int} {conn : Conn}
      {t : EvalMaxSAT K} {solver : Solver_cadical K} {l : Int}
      (before : Stands env start s log i assumption conn t) (here : assumption[i]? = some l)
      (answer : t.solver.propagate env [l] = (none, solver)) :
      Stands env start s ((l, none) :: log) i (swapRemove assumption i)
        (conn.clear assumption.length i) (({ t with solver := solver }).addHardClause [-l])

namespace Propagations

/-- Propagating `l` succeeded and returned `r`. -/
def Gave (log : Propagations) (l r : Int) : Prop := ∃ prop, (l, some prop) ∈ log ∧ r ∈ prop

/-- The last propagation failed: the literal that comes next has moved into its slot. -/
def Failed : Propagations → Prop
  | [] => False
  | x :: _ => x.2 = none

/-- Each literal that moved into a failed one's slot gives the negation of every literal
before it that gave its negation. -/
def NothingLost : Propagations → Prop
  | [] => True
  | (_, none) :: log => NothingLost log
  | (m, some q) :: log => NothingLost log ∧ (Failed log → ∀ l, Gave log l (-m) → -l ∈ q)

/-- The edge between `x`, processed before, and `m` whose answer `q` comes next is there. -/
def Meets (log : Propagations) (m : Int) (q : List Int) (x : Int) : Prop :=
  (∃ prop, (x, some prop) ∈ log) ∧ (-x ∈ q ∨ (¬ Failed log ∧ Gave log x (-m)))

def Edge : Propagations → Int → Int → Prop
  | [], _, _ => False
  | (_, none) :: log, x, y => Edge log x y
  | (m, some q) :: log, x, y => Edge log x y ∨ (y = m ∧ Meets log m q x) ∨ (x = m ∧ Meets log m q y)

def Succeeded (log : Propagations) (l : Int) : Prop := ∃ prop, (l, some prop) ∈ log

end Propagations

open Propagations

section Edges
variable {log : Propagations} {l m x y : Int}

theorem edge_symm : Edge log x y ↔ Edge log y x := by
  induction log with
  | nil => rfl
  | cons entry log ih =>
    obtain ⟨m, _ | q⟩ := entry
    · exact ih
    · simp only [Edge, ih]; tauto

theorem edge_succeeded (edge : Edge log x y) : Succeeded log x ∧ Succeeded log y := by
  induction log with
  | nil => exact edge.elim
  | cons entry log ih =>
    have step : ∀ {z}, Succeeded log z → Succeeded (entry :: log) z := by
      rintro z ⟨prop, mem⟩
      exact ⟨prop, List.mem_cons_of_mem entry mem⟩
    have old : Edge log x y → Succeeded (entry :: log) x ∧ Succeeded (entry :: log) y := by
      intro before
      obtain ⟨left, right⟩ := ih before
      exact ⟨step left, step right⟩
    obtain ⟨m, _ | q⟩ := entry
    · exact old edge
    · rcases edge with before | ⟨rfl, meets⟩ | ⟨rfl, meets⟩
      · exact old before
      · exact ⟨step meets.1, q, by simp⟩
      · exact ⟨⟨q, by simp⟩, step meets.1⟩

theorem gave_cons {r : Int} {answer : Option (List Int)} (other : l ≠ m) :
    Gave ((m, answer) :: log) l r ↔ Gave log l r := by
  simp only [Gave, List.mem_cons, Prod.mk.injEq]
  constructor
  · rintro ⟨prop, ⟨same, _⟩ | mem, inProp⟩
    · exact absurd same other
    · exact ⟨prop, mem, inProp⟩
  · rintro ⟨prop, mem, inProp⟩
    exact ⟨prop, Or.inr mem, inProp⟩

theorem gave_head {r : Int} {q : List Int} (fresh : ∀ a, (m, a) ∉ log) :
    Gave ((m, some q) :: log) m r ↔ r ∈ q := by
  simp only [Gave, List.mem_cons, Prod.mk.injEq, true_and]
  constructor
  · rintro ⟨prop, same | mem, inProp⟩
    · rw [← Option.some.inj same]; exact inProp
    · exact absurd mem (fresh _)
  · intro inProp
    exact ⟨q, Or.inl rfl, inProp⟩

theorem gave_succeeded {r : Int} (gave : Gave log l r) : Succeeded log l := by
  obtain ⟨prop, mem, _⟩ := gave
  exact ⟨prop, mem⟩

theorem succeeded_cons {answer : Option (List Int)} (other : l ≠ m) :
    Succeeded ((m, answer) :: log) l ↔ Succeeded log l := by
  simp only [Succeeded, List.mem_cons, Prod.mk.injEq]
  constructor
  · rintro ⟨prop, ⟨same, _⟩ | mem⟩
    · exact absurd same other
    · exact ⟨prop, mem⟩
  · rintro ⟨prop, mem⟩
    exact ⟨prop, Or.inr mem⟩

theorem edge_new {q : List Int} (fresh : ∀ a, (m, a) ∉ log) (other : l ≠ m) :
    Edge ((m, some q) :: log) l m ↔
      Succeeded log l ∧ (-l ∈ q ∨ (¬ Failed log ∧ Gave log l (-m))) := by
  have none : ¬ Edge log l m := by
    intro edge
    obtain ⟨prop, mem⟩ := (edge_succeeded edge).2
    exact fresh _ mem
  simp only [Edge, none, false_or, true_and, other, false_and, or_false]
  rfl

theorem edge_old {q : List Int} (left : x ≠ m) (right : y ≠ m) :
    Edge ((m, some q) :: log) x y ↔ Edge log x y := by
  simp [Edge, left, right]

theorem edge_right_iff (keys : (log.map Prod.fst).Nodup) :
    (∀ x y, Succeeded log x → Succeeded log y → x ≠ y →
      (Edge log x y ↔ Gave log x (-y) ∨ Gave log y (-x))) ↔ NothingLost log := by
  induction log with
  | nil => simp [NothingLost, Succeeded]
  | cons entry log ih =>
    obtain ⟨m, answer⟩ := entry
    rw [List.map_cons, List.nodup_cons] at keys
    have fresh : ∀ a, (m, a) ∉ log := fun a mem => keys.1 (List.mem_map.mpr ⟨(m, a), mem, rfl⟩)
    have apart : ∀ {z}, Succeeded log z → z ≠ m := by
      rintro z ⟨prop, mem⟩ rfl
      exact fresh _ mem
    cases answer with
    | none =>
      rw [NothingLost, ← ih keys.2]
      have known : ∀ {z}, Succeeded ((m, none) :: log) z ↔ Succeeded log z := by
        intro z
        simp [Succeeded]
      have gave : ∀ {z r}, Gave ((m, none) :: log) z r ↔ Gave log z r := by
        intro z r
        simp [Gave]
      simp only [known, gave]
      rfl
    | some q =>
      rw [NothingLost, ← ih keys.2]
      constructor
      · intro right
        refine ⟨?_, ?_⟩
        · intro x y doneX doneY ne
          have neX := apart doneX
          have neY := apart doneY
          have here := right x y ((succeeded_cons neX).mpr doneX) ((succeeded_cons neY).mpr doneY) ne
          rwa [edge_old neX neY, gave_cons neX, gave_cons neY] at here
        · intro failed l gave
          have doneL := gave_succeeded gave
          have neL := apart doneL
          have here := right l m ((succeeded_cons neL).mpr doneL) ⟨q, by simp⟩ neL
          rw [edge_new fresh neL, gave_cons neL, gave_head fresh] at here
          rcases (here.mpr (Or.inl gave)).2 with found | ⟨fine, _⟩
          · exact found
          · exact absurd failed fine
      · rintro ⟨right, nothing⟩
        have pair : ∀ l, Succeeded log l → (Edge ((m, some q) :: log) l m ↔
            Gave ((m, some q) :: log) l (-m) ∨ Gave ((m, some q) :: log) m (-l)) := by
          intro l doneL
          have neL := apart doneL
          rw [edge_new fresh neL, gave_cons neL, gave_head fresh]
          constructor
          · rintro ⟨_, found | ⟨_, gave⟩⟩
            · exact Or.inr found
            · exact Or.inl gave
          · rintro (gave | found)
            · refine ⟨doneL, ?_⟩
              by_cases failed : Failed log
              · exact Or.inl (nothing failed l gave)
              · exact Or.inr ⟨failed, gave⟩
            · exact ⟨doneL, Or.inl found⟩
        intro x y doneX doneY ne
        by_cases isX : x = m
        · subst isX
          have neY : y ≠ x := Ne.symm ne
          rw [edge_symm, or_comm]
          exact pair y ((succeeded_cons neY).mp doneY)
        · by_cases isY : y = m
          · subst isY
            exact pair x ((succeeded_cons isX).mp doneX)
          · rw [edge_old isX isY, gave_cons isX, gave_cons isY]
            exact right x y ((succeeded_cons isX).mp doneX) ((succeeded_cons isY).mp doneY) ne

end Edges

section Slots
variable {xs : List Int} {i j : Nat} {a : Int}

theorem swapRemove_length (inside : i < xs.length) : (swapRemove xs i).length = xs.length - 1 := by
  have nonempty : xs ≠ [] := by rintro rfl; simp at inside
  simp [swapRemove, List.getLast?_eq_some_getLast nonempty]

theorem swapRemove_keeps (inside : i < xs.length) (lt : j < i) :
    (swapRemove xs i)[j]? = xs[j]? := by
  have nonempty : xs ≠ [] := by rintro rfl; simp at inside
  simp only [swapRemove, List.getLast?_eq_some_getLast nonempty, List.getElem?_dropLast,
    List.length_set]
  rw [if_pos (by omega), List.getElem?_set_ne (by omega)]

theorem swapRemove_behind (nodup : xs.Nodup) (inside : i < xs.length) (le : i ≤ j)
    (found : (swapRemove xs i)[j]? = some a) :
    ∃ k, i < k ∧ xs[k]? = some a := by
  have nonempty : xs ≠ [] := by rintro rfl; simp at inside
  have short := (List.getElem?_eq_some_iff.mp found).1
  rw [swapRemove_length inside] at short
  by_cases same : j = i
  · subst same
    simp only [swapRemove, List.getLast?_eq_some_getLast nonempty, List.getElem?_dropLast,
      List.length_set] at found
    rw [if_pos (by omega), List.getElem?_set_self inside] at found
    refine ⟨xs.length - 1, by omega, ?_⟩
    rw [← found, ← List.getLast?_eq_some_getLast nonempty, List.getLast?_eq_getElem?]
  · exact ⟨j, by omega, swapRemove_get found same⟩

end Slots

/-- What the matrix holds when the loop has come to slot `i` after the propagations `log`. -/
structure Recorded (log : Propagations) (i : Nat) (assumption : List Int) (conn : Conn) : Prop where
  nodup : assumption.Nodup
  bound : i ≤ assumption.length
  keys : (log.map Prod.fst).Nodup
  behind : ∀ (x : Nat) l, x < i → assumption[x]? = some l → Succeeded log l
  kept : ∀ l, Succeeded log l → ∃ x < i, assumption[x]? = some l
  fresh : ∀ (x : Nat) l, i ≤ x → assumption[x]? = some l → ∀ answer, (l, answer) ∉ log
  symm : conn.Symm
  past : ∀ (x y : Nat) l m, x < i → y < i → x ≠ y → assumption[x]? = some l →
    assumption[y]? = some m → (conn x y = true ↔ Edge log l m)
  ahead : ∀ (x y : Nat) l m, x < i → i ≤ y → assumption[x]? = some l → assumption[y]? = some m →
    (conn x y = true ↔ Gave log l (-m) ∧ ¬ (y = i ∧ Failed log))
  blank : ∀ x y, i ≤ x → i ≤ y → x < assumption.length → y < assumption.length →
    conn x y = false

theorem recorded_entered {assumption : List Int} (nodup : assumption.Nodup) :
    Recorded [] 0 assumption (fun _ _ => false) := by
  refine ⟨nodup, Nat.zero_le _, by simp, ?_, ?_, by simp, fun _ _ => rfl, ?_, ?_, by simp⟩
  · intro x l below; omega
  · rintro l ⟨prop, mem⟩; simp at mem
  · intro x y l m below; omega
  · intro x y l m below; omega

section Recording
variable {log : Propagations} {i : Nat} {assumption prop : List Int} {conn : Conn} {lit : Int}

theorem linked_iff {x y : Nat} {l m : Int}
    (ne : x ≠ y) (atX : assumption[x]? = some l) (atY : assumption[y]? = some m) :
    conn.linkAll assumption (· ≠ i) i prop x y = true ↔
      conn x y = true ∨ (x = i ∧ -m ∈ prop) ∨ (y = i ∧ -l ∈ prop) := by
  rw [linkAll_iff]
  refine or_congr_right ?_
  constructor
  · rintro ⟨k, admitted, ⟨r, mem, found⟩, ⟨rfl, rfl⟩ | ⟨rfl, rfl⟩⟩
    · rw [atY] at found
      have : m = -r := Option.some.inj found
      exact Or.inl ⟨rfl, by rw [this, neg_neg]; exact mem⟩
    · rw [atX] at found
      have : l = -r := Option.some.inj found
      exact Or.inr ⟨rfl, by rw [this, neg_neg]; exact mem⟩
  · rintro (⟨rfl, mem⟩ | ⟨rfl, mem⟩)
    · exact ⟨y, by simpa using Ne.symm ne, ⟨-m, mem, by rw [neg_neg]; exact atY⟩, Or.inl ⟨rfl, rfl⟩⟩
    · exact ⟨x, by simpa using ne, ⟨-l, mem, by rw [neg_neg]; exact atX⟩, Or.inr ⟨rfl, rfl⟩⟩

theorem recorded_linked (h : Recorded log i assumption conn) (here : assumption[i]? = some lit) :
    Recorded ((lit, some prop) :: log) (i + 1) assumption
      (conn.linkAll assumption (· ≠ i) i prop) := by
  have inside := (List.getElem?_eq_some_iff.mp here).1
  have freshLit := h.fresh i lit (Nat.le_refl i) here
  have apart : ∀ {x l}, x ≠ i → assumption[x]? = some l → l ≠ lit := by
    rintro x l ne atX rfl
    exact ne ((List.getElem?_inj inside h.nodup).mp (here.trans atX.symm)).symm
  have symm' := (linkAll_spec (a := assumption) (f := (· ≠ i)) (i := i) prop h.symm).1
  have withNew : ∀ (x : Nat) l, x < i → assumption[x]? = some l →
      (conn.linkAll assumption (· ≠ i) i prop x i = true ↔ Edge ((lit, some prop) :: log) l lit) := by
    intro x l below atX
    rw [linked_iff (by omega) atX here, h.ahead x i l lit below (Nat.le_refl i) atX here,
      edge_new freshLit (apart (by omega) atX)]
    have done := h.behind x l below atX
    have : x ≠ i := by omega
    simp only [this, false_and, false_or, true_and]
    tauto
  refine ⟨h.nodup, inside, ?_, ?_, ?_, ?_, symm', ?_, ?_, ?_⟩
  · rw [List.map_cons, List.nodup_cons]
    refine ⟨fun mem => ?_, h.keys⟩
    obtain ⟨⟨l, answer⟩, inLog, same⟩ := List.mem_map.mp mem
    simp only at same
    subst same
    exact freshLit answer inLog
  · intro x l below atX
    by_cases same : x = i
    · subst same
      rw [here] at atX
      rw [← Option.some.inj atX]
      exact ⟨prop, by simp⟩
    · exact (succeeded_cons (apart same atX)).mpr (h.behind x l (by omega) atX)
  · intro l done
    by_cases same : l = lit
    · exact ⟨i, by omega, by rw [same]; exact here⟩
    · obtain ⟨x, below, atX⟩ := h.kept l ((succeeded_cons same).mp done)
      exact ⟨x, by omega, atX⟩
  · intro x l le atX answer mem
    rcases List.mem_cons.mp mem with same | mem
    · exact apart (by omega) atX (congrArg Prod.fst same)
    · exact h.fresh x l (by omega) atX answer mem
  · intro x y l m belowX belowY ne atX atY
    by_cases isX : x = i
    · subst isX
      obtain rfl := Option.some.inj (here.symm.trans atX)
      rw [symm' x y, edge_symm]
      exact withNew y m (by omega) atY
    · by_cases isY : y = i
      · subst isY
        obtain rfl := Option.some.inj (here.symm.trans atY)
        exact withNew x l (by omega) atX
      · rw [linked_iff ne atX atY, edge_old (apart isX atX) (apart isY atY),
          h.past x y l m (by omega) (by omega) ne atX atY]
        simp only [isX, isY, false_and, or_false]
  · intro x y l m belowX le atX atY
    have succeeded : ¬ (y = i + 1 ∧ Failed ((lit, some prop) :: log)) := by
      rintro ⟨_, failed⟩; simp [Failed] at failed
    rw [linked_iff (by omega) atX atY]
    simp only [succeeded, not_false_eq_true, and_true]
    by_cases isX : x = i
    · subst isX
      obtain rfl := Option.some.inj (here.symm.trans atX)
      have unmarked := h.blank x y (Nat.le_refl x) (by omega) inside
        (List.getElem?_eq_some_iff.mp atY).1
      have : y ≠ x := by omega
      rw [gave_head freshLit, unmarked]
      simp [this]
    · have : y ≠ i := by omega
      rw [gave_cons (apart isX atX), h.ahead x y l m (by omega) (by omega) atX atY]
      simp only [isX, this, false_and, or_false, not_false_eq_true, and_true]
  · intro x y leX leY inX inY
    have unmarked := h.blank x y (by omega) (by omega) inX inY
    by_contra marked
    rw [Bool.not_eq_false, linkAll_iff] at marked
    rcases marked with edge | ⟨k, _, _, ends⟩
    · rw [unmarked] at edge; simp at edge
    · omega

theorem recorded_dropped (h : Recorded log i assumption conn) (here : assumption[i]? = some lit) :
    Recorded ((lit, none) :: log) i (swapRemove assumption i) (conn.clear assumption.length i) := by
  have inside := (List.getElem?_eq_some_iff.mp here).1
  have freshLit := h.fresh i lit (Nat.le_refl i) here
  have length := swapRemove_length inside
  have within : ∀ {x : Nat} {l}, (swapRemove assumption i)[x]? = some l → x < assumption.length := by
    intro x l found
    have := (List.getElem?_eq_some_iff.mp found).1
    omega
  have before : ∀ {x : Nat} {l}, x < i → (swapRemove assumption i)[x]? = some l →
      assumption[x]? = some l := fun below found => (swapRemove_keeps inside below).symm.trans found
  have known : ∀ {z}, Succeeded ((lit, none) :: log) z ↔ Succeeded log z := by
    intro z
    simp [Succeeded]
  refine ⟨?_, by omega, ?_, ?_, ?_, ?_, clear_symm h.symm _ _, ?_, ?_, ?_⟩
  · obtain ⟨pre, post, shape, perm⟩ := swapRemove_perm here
    have nodup := h.nodup
    rw [shape] at nodup
    exact perm.symm.nodup ((List.Sublist.append_left (List.sublist_cons_self lit post) pre).nodup nodup)
  · rw [List.map_cons, List.nodup_cons]
    refine ⟨fun mem => ?_, h.keys⟩
    obtain ⟨⟨l, answer⟩, inLog, same⟩ := List.mem_map.mp mem
    simp only at same
    subst same
    exact freshLit answer inLog
  · intro x l below atX
    exact known.mpr (h.behind x l below (before below atX))
  · intro l done
    obtain ⟨x, below, atX⟩ := h.kept l (known.mp done)
    exact ⟨x, below, (swapRemove_keeps inside below).trans atX⟩
  · intro x l le atX answer mem
    obtain ⟨k, above, atK⟩ := swapRemove_behind h.nodup inside le atX
    rcases List.mem_cons.mp mem with same | mem
    · have : l = lit := congrArg Prod.fst same
      subst this
      have := (List.getElem?_inj inside h.nodup).mp (here.trans atK.symm)
      omega
    · exact h.fresh k l (by omega) atK answer mem
  · intro x y l m belowX belowY ne atX atY
    rw [clear_iff (within atX) (within atY),
      h.past x y l m belowX belowY ne (before belowX atX) (before belowY atY)]
    have : x ≠ i ∧ y ≠ i := by omega
    simp only [this, ne_eq, not_false_eq_true, and_true]
    rfl
  · intro x y l m belowX le atX atY
    rw [clear_iff (within atX) (within atY)]
    have gave : Gave ((lit, none) :: log) l (-m) ↔ Gave log l (-m) := by simp [Gave]
    by_cases same : y = i
    · simp [same, Failed]
    · rw [h.ahead x y l m belowX le (before belowX atX) (swapRemove_get atY same), gave]
      have : x ≠ i := by omega
      simp only [same, this, false_and, not_false_eq_true, and_true, ne_eq]
  · intro x y leX leY inX inY
    have old := h.blank x y leX leY (by omega) (by omega)
    simp only [Conn.clear]
    split
    · rfl
    · exact old

theorem recorded_of_stands {start : List Int} (nodup : start.Nodup)
    (stands : Stands env start s log i assumption conn t) : Recorded log i assumption conn := by
  induction stands with
  | entered => exact recorded_entered nodup
  | linked _ here _ ih => exact recorded_linked ih here
  | dropped _ here _ ih => exact recorded_dropped ih here

end Recording

/-- The edges between survivors are those that the propagation of either one called for. -/
def RightEdges (log : Propagations) (assumption : List Int) (conn : Conn) : Prop :=
  (∀ x y, conn x y = conn y x) ∧
  ∀ (x y : Nat) l m, x ≠ y → assumption[x]? = some l → assumption[y]? = some m →
    (conn x y = true ↔ Gave log l (-m) ∨ Gave log m (-l))

theorem rightEdges_iff {log : Propagations} {i : Nat} {assumption : List Int} {conn : Conn}
    (h : Recorded log i assumption conn) (last : assumption[i]? = none) :
    RightEdges log assumption conn ↔ NothingLost log := by
  have whole : i = assumption.length := by
    have := List.getElem?_eq_none_iff.mp last
    have := h.bound
    omega
  have at_end : ∀ {x : Nat} {l}, assumption[x]? = some l → x < i := by
    intro x l atX
    rw [whole]
    exact (List.getElem?_eq_some_iff.mp atX).1
  rw [← edge_right_iff h.keys]
  constructor
  · rintro ⟨_, right⟩ l m doneL doneM ne
    obtain ⟨x, belowX, atX⟩ := h.kept l doneL
    obtain ⟨y, belowY, atY⟩ := h.kept m doneM
    have apart : x ≠ y := by
      rintro rfl
      exact ne (Option.some.inj (atX.symm.trans atY))
    rw [← h.past x y l m belowX belowY apart atX atY]
    exact right x y l m apart atX atY
  · intro right
    refine ⟨h.symm, ?_⟩
    intro x y l m apart atX atY
    have belowX := at_end atX
    have belowY := at_end atY
    rw [h.past x y l m belowX belowY apart atX atY]
    refine right l m (h.behind x l belowX atX) (h.behind y m belowY atY) ?_
    rintro rfl
    exact apart ((List.getElem?_inj (List.getElem?_eq_some_iff.mp atX).1 h.nodup).mp
      (atX.trans atY.symm))

theorem buildGraph_stands (start : List Int) (s : EvalMaxSAT K) :
    Wp (fun _ => True) (buildGraph env start) (fun out t => ∃ log i,
      Stands env start s log i out.1 out.2 t ∧ out.1[i]? = none) s := by
  refine wp_loop Nat.lt_wfRel.wf (fun b _ => b.2.1.length - b.1)
    (fun b t => ∃ log, Stands env start s log b.1 b.2.1 b.2.2 t) ?_ _ _ ⟨[], .entered⟩
  rintro ⟨i, assumption, conn⟩ t ⟨log, stands⟩
  simp only
  cases here : assumption[i]? with
  | none => exact wp_pure ⟨log, i, stands, here⟩
  | some lit =>
    have inside := (List.getElem?_eq_some_iff.mp here).1
    simp only
    apply wp_bind
    refine wp_act trivial ?_
    rcases answer : t.solver.propagate env [lit] with ⟨_ | prop, solver⟩
    · apply wp_bind
      refine wp_act trivial (wp_pure ⟨⟨_, .dropped stands here answer⟩, ?_⟩)
      change (swapRemove assumption i).length - i < assumption.length - i
      rw [swapRemove_length inside]
      omega
    · refine wp_pure ⟨⟨_, .linked stands here answer⟩, ?_⟩
      change assumption.length - (i + 1) < assumption.length - i
      omega

/-- The loop ends, and the matrix it leaves has the edges that the answers call for just
when no literal that moved into a failed one's slot had an edge it did not find again. -/
theorem graph_edges_right_iff (start : List Int) (nodup : start.Nodup) (s : EvalMaxSAT K) :
    ∃ tr out t log i, (buildGraph env start).Ends s tr (.done out) t ∧
      Stands env start s log i out.1 out.2 t ∧ out.1[i]? = none ∧
      (RightEdges log out.1 out.2 ↔ NothingLost log) := by
  obtain ⟨tr, out, t, ends, _, log, i, stands, last⟩ := buildGraph_stands start s
  exact ⟨tr, out, t, log, i, ends, stands, last,
    rightEdges_iff (recorded_of_stands nodup stands) last⟩

section Lost

/-- Literal `1` propagates `-3` by way of `4` and `5`, which `3` does not undo; literal `2`
fails. -/
def oneWayConflict : EvalMaxSAT Unit :=
  let s := newVars 6 (EvalMaxSAT.fresh ())
  let s := [[-1, 4], [-1, 5], [-4, -5, -3], [-2, 6], [-2, -6]].foldl (fun s c => s.addHardClause c) s
  [1, 2, 3].foldl (fun s lit => (s.addSoftClause [lit] 1).2) s

theorem graph_edges_right_iff_three : ∃ tr out t log i,
    (buildGraph referenceBackEnd [1, 2, 3]).Ends oneWayConflict tr (.done out) t ∧
      Stands referenceBackEnd [1, 2, 3] oneWayConflict log i out.1 out.2 t ∧ out.1[i]? = none ∧
      (RightEdges log out.1 out.2 ↔ NothingLost log) :=
  graph_edges_right_iff [1, 2, 3] (by decide) oneWayConflict

theorem moved_literal_loses_edge :
    ¬ ∀ (env : Env Unit) (s : EvalMaxSAT Unit) (start : List Int) (log : Propagations) (i : Nat)
      (assumption : List Int) (conn : Conn) (t : EvalMaxSAT Unit), env.Sound → start.Nodup →
      start.length ≤ 30000 → (∀ l ∈ start, 0 < s.weight l) →
      Stands env start s log i assumption conn t → assumption[i]? = none →
      RightEdges log assumption conn := by
  intro claim
  have first : Stands referenceBackEnd [1, 2, 3] oneWayConflict [(1, some [4, 5, -3])] 1 _ _ _ :=
    .linked (l := 1) .entered rfl (Prod.ext (by decide) rfl)
  have second : Stands referenceBackEnd [1, 2, 3] oneWayConflict
      [(2, none), (1, some [4, 5, -3])] 1 _ _ _ :=
    .dropped (l := 2) first rfl (Prod.ext (by decide) rfl)
  have third : Stands referenceBackEnd [1, 2, 3] oneWayConflict
      [(3, some []), (2, none), (1, some [4, 5, -3])] 2 _ _ _ :=
    .linked (l := 3) second rfl (Prod.ext (by decide) rfl)
  obtain ⟨_, right⟩ := claim _ _ _ _ _ _ _ _ reference_sound (by decide) (by decide) (by decide)
    third rfl
  have called : Gave [(3, some []), (2, none), (1, some [4, 5, -3])] 1 (-3) :=
    ⟨[4, 5, -3], by simp, by simp⟩
  have edge := (right 0 1 1 3 (by decide) rfl rfl).mpr (Or.inl called)
  exact absurd edge (by decide)

end Lost
end EvalMaxSat
