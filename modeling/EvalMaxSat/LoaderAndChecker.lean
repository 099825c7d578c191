import EvalMaxSat.LoadedFiles
import EvalMaxSat.FormulaCalls

/-!
The checker computes, from the file and a solution, what the state that the loader leaves makes of
the solution.
-/
namespace EvalMaxSat
open Literals InputStreams InputStream MaxSatSolver EvalMaxSAT

variable {K : Type} {core : K} {s t : EvalMaxSAT K} {d : Story} {m a : Assignment}

section Meaning

/-- The weights of the soft clauses that the assignment falsifies. -/
def softLoss (soft : List (Clause × Int)) (a : Assignment) : Nat :=
  (soft.map fun c => penalty c.1 c.2.toNat a).sum

theorem softLoss_le (soft : List (Clause × Int)) (a : Assignment) :
    softLoss soft a ≤ (soft.map fun c => c.2.toNat).sum := by
  apply List.sum_le_sum
  intro c mem
  unfold penalty
  split
  · exact Nat.zero_le _
  · exact Nat.le_refl _

theorem described_call {u : Update} {x : Int} (h : Described d s) (loaded : Loaded s)
    (builds : d.Builds u) (small : d.total + u.load < 2 ^ 63) (applied : u.apply s = some (x, t)) :
    Described (d.record u x) t ∧ Loaded t := by
  have budget := h.budget
  have fits := fits_of_total h.between (by omega) small
  have admits := (Story.admits_of_builds builds).1
  obtain ⟨changed, _⟩ := changed_of_apply h.between admits fits applied
  exact ⟨described_apply h builds fits (by omega) applied,
    loaded_of_changed loaded changed (outcome_apply h.between admits fits applied)⟩

def inputStory (n : Nat) (hard : Cnf) : Story := ⟨(List.range n).map (· + 1), [], hard, []⟩

theorem zero_total : (0 : Nat) + 0 < 2 ^ 63 := by decide

theorem mem_inputVars {n v : Nat} {hard : Cnf} : v ∈ (inputStory n hard).vars ↔ 1 ≤ v ∧ v ≤ n := by
  simp only [inputStory, List.mem_map, List.mem_range]
  constructor
  · rintro ⟨k, below, rfl⟩
    omega
  · rintro ⟨pos, upto⟩
    exact ⟨v - 1, by omega, by omega⟩

theorem described_newVars (core : K) (n : Nat) :
    Described (inputStory n []) (unweighted core n []) := by
  induction n with
  | zero => exact described_fresh core
  | succ n ih =>
    have call : (Update.newVar).apply (unweighted core n []) =
        some (((n + 1 : Nat) : Int), unweighted core (n + 1) []) :=
      congrArg (fun s => some (((n + 1 : Nat) : Int), s)) newVar_unweighted
    have next := (@described_call _ _ _ _ .newVar _ ih ⟨rfl, rfl, rfl⟩ trivial zero_total call).1
    have story : (inputStory n []).record .newVar ((n + 1 : Nat) : Int) = inputStory (n + 1) [] := by
      simp only [Story.record, inputStory, Int.natAbs_natCast, List.range_succ, List.map_append,
        List.map_cons, List.map_nil]
    rw [story] at next
    exact next

theorem described_hard {n : Nat} {hard more : Cnf} (h : Described (inputStory n hard) (unweighted core n hard))
    (spoken : ∀ lits ∈ more, Within n lits) :
    Described (inputStory n (hard ++ more)) (unweighted core n (hard ++ more)) := by
  induction more generalizing hard with
  | nil =>
    rw [List.append_nil]
    exact h
  | cons lits more ih =>
    have within := spoken lits (by simp)
    have call : (Update.addClause lits none).apply (unweighted core n hard) =
        some (0, unweighted core n (hard ++ [lits])) :=
      congrArg (fun s => some (0, s)) (addHardClause_unweighted fun l mem => (within l mem).2)
    have here : (inputStory n hard).OverVars lits := fun l mem => by
      obtain ⟨nonzero, upto⟩ := within l mem
      exact ⟨nonzero, mem_inputVars.mpr ⟨by omega, upto⟩⟩
    have next := (@described_call _ _ _ _ (.addClause lits none) _ h ⟨rfl, rfl, rfl⟩ here zero_total call).1
    have rest := ih next (fun c mem => spoken c (by simp [mem]))
    rw [List.append_assoc] at rest
    exact rest

theorem described_inputs (core : K) {calls : List ClauseCall}
    (nonzero : ∀ c ∈ calls, ∀ l ∈ c.1, l ≠ 0) :
    Described (inputStory (variablesOf 0 calls) (hardOf calls)) (inputs core calls) := by
  have spoken : ∀ lits ∈ hardOf calls, Within (variablesOf 0 calls) lits := by
    intro lits mem l lit
    obtain ⟨c, inCalls, kind⟩ := List.mem_filterMap.mp mem
    split at kind
    · rw [← Option.some.inj kind] at lit
      exact ⟨nonzero c inCalls l lit, variablesOf_mem inCalls lit⟩
    · simp at kind
  have hard := described_hard (described_newVars core (variablesOf 0 calls)) spoken
  rw [List.nil_append] at hard
  exact (@described_call _ _ _ _ (.setNInputVars _) _ hard ⟨rfl, rfl, rfl⟩ trivial zero_total rfl).1

theorem described_soft {clause : Clause} {w : Int} (h : Described d s) (loaded : Loaded s)
    (spoken : d.OverVars clause) (nonneg : 0 ≤ w) (small : d.total + w.toNat < 2 ^ 63)
    (applied : (s.addClause clause (some w)).map Prod.snd = some t) :
    ∃ d' : Story, Described d' t ∧ Loaded t ∧ d'.vars = d.vars ∧ d'.hard = d.hard ∧
      d'.total = d.total + w.toNat ∧ t.nInputVars = s.nInputVars ∧
      ∀ a, d'.softCost a = d.softCost a + penalty clause w.toNat a := by
  by_cases zero : w = 0
  · rw [zero] at applied ⊢
    simp only [EvalMaxSAT.addClause, if_true, Option.map_some, Option.some.injEq] at applied
    rw [← applied]
    exact ⟨d, h, loaded, rfl, rfl, rfl, rfl, fun a => by simp [penalty]⟩
  · obtain ⟨⟨x, u⟩, call, same⟩ := Option.map_eq_some_iff.mp applied
    change u = t at same
    rw [same] at call
    have builds : d.Builds (.addClause clause (some w)) := ⟨spoken, by omega, by omega⟩
    have load : (Update.addClause clause (some w)).load = w.toNat := by
      rw [Update.load]
      omega
    obtain ⟨after, loaded'⟩ := described_call h loaded builds (by rw [load]; exact small) call
    refine ⟨_, after, loaded', rfl, rfl, by rw [Story.total_record, load], ?_, fun a => ?_⟩
    · have soft := addClause_some zero call
      obtain ⟨within, plain⟩ := between_within h.between (Story.over_of_overVars spoken)
      have budget := h.budget
      have fits := fits_of_total h.between (by omega) (by rw [load]; exact small)
      obtain ⟨_, spec⟩ := @addSoftClause_soft _ s clause w.toNat h.between.sane within plain
        (by omega) (by omega) (fun l eq => by
          rw [eq] at fits
          rw [Int.toNat_of_nonneg nonneg]
          exact fits)
      have besides := spec.besides
      rw [Int.toNat_of_nonneg nonneg, soft] at besides
      exact congrArg (fun o => o.2.2.2.2.2.2) besides
    · simp [Story.softCost, Story.record]

end Meaning

section Checking
variable {B : Type} [InputStream B]

/-- The clauses of the entries with their weights as they are read, hard where no weight is given. -/
def readClauses : Nat → List Entry → Formula
  | _, [] => []
  | _, .top mark :: entries => readClauses (weightRead mark) entries
  | top, .clause mark lits :: entries =>
    (lits, if top ≤ weightRead mark then none else some (weightRead mark)) :: readClauses top entries

theorem readCalls_eq (top : Nat) (entries : List Entry) : readCalls top entries =
    (readClauses top entries).map fun c => (c.1, c.2.map fun w : Nat => i64 w) := by
  induction entries generalizing top with
  | nil => rfl
  | cons e entries ih =>
    cases e with
    | top mark => exact ih (weightRead mark)
    | clause mark lits =>
      rw [readCalls, readClauses, List.map_cons, ih]
      split <;> rfl

def softWeights (formula : Formula) : Nat := (formula.filterMap Prod.snd).sum

theorem readClauses_lits {top : Nat} {entries : List Entry} {c : Clause × Option Nat}
    (mem : c ∈ readClauses top entries) : ∃ mark, Entry.clause mark c.1 ∈ entries := by
  induction entries generalizing top with
  | nil => exact absurd mem List.not_mem_nil
  | cons e entries ih =>
    cases e with
    | top mark =>
      obtain ⟨mark', later⟩ := ih mem
      exact ⟨mark', List.mem_cons_of_mem _ later⟩
    | clause mark lits =>
      rcases List.mem_cons.mp mem with rfl | mem
      · exact ⟨mark, List.mem_cons_self⟩
      · obtain ⟨mark', later⟩ := ih mem
        exact ⟨mark', List.mem_cons_of_mem _ later⟩

theorem softWeights_cons (lits : Clause) (w : Nat) (formula : Formula) :
    softWeights ((lits, some w) :: formula) = w + softWeights formula := by
  simp [softWeights]

theorem signed_callsOf {formula : Formula} (small : softWeights formula < 2 ^ 63) :
    formula.map (fun c => (c.1, c.2.map fun w : Nat => i64 w)) = callsOf formula := by
  unfold callsOf
  apply List.map_congr_left
  intro c mem
  obtain ⟨lits, weight⟩ := c
  cases weight with
  | none => rw [Option.map_none, Option.map_none]
  | some w =>
    have among : w ∈ formula.filterMap Prod.snd := List.mem_filterMap.mpr ⟨_, mem, rfl⟩
    have upto : w ≤ softWeights formula := List.single_le_sum (by simp) w among
    rw [Option.map_some, Option.map_some, i64_of_range (by omega) (by omega)]

theorem softOf_callsOf (formula : Formula) :
    ((softOf (callsOf formula)).map fun c => c.2.toNat).sum = softWeights formula ∧
      ∀ c ∈ softOf (callsOf formula), 0 ≤ c.2 := by
  induction formula with
  | nil => exact ⟨rfl, fun c mem => absurd mem List.not_mem_nil⟩
  | cons c formula ih =>
    obtain ⟨lits, weight⟩ := c
    obtain ⟨sum, nonneg⟩ := ih
    cases weight with
    | none => exact ⟨sum, nonneg⟩
    | some w =>
      have first : softOf (callsOf ((lits, some w) :: formula)) =
          (lits, (w : Int)) :: softOf (callsOf formula) := rfl
      rw [first, softWeights_cons, ← sum]
      constructor
      · rw [List.map_cons, List.sum_cons, Int.toNat_natCast]
      · intro c mem
        rcases List.mem_cons.mp mem with rfl | mem
        · exact Int.natCast_nonneg w
        · exact nonneg c mem

end Checking

section Agreement
variable {B : Type} [InputStream B] {refills again : List (List Nat)} {result : List Bool}

theorem writtenClause_nonzero (b : B) : ∀ l ∈ (writtenClause b).1, l ≠ 0 := by
  induction h : left b using Nat.strongRecOn generalizing b with
  | ind n ih =>
    cases first : writtenInt b with
    | error e =>
      rw [writtenClause_error first]
      exact fun l mem => absurd mem List.not_mem_nil
    | ok r =>
      obtain ⟨lit, c⟩ := r
      have less := writtenInt_left first
      rw [writtenClause_ok first]
      split
      · exact fun l mem => absurd mem List.not_mem_nil
      · rename_i nonzero
        intro l mem
        rcases List.mem_cons.mp mem with rfl | mem
        · exact nonzero
        · exact ih (left c) (by omega) c rfl l mem

theorem document_nonzero (b : B) {mark : Option Nat} {lits : Clause}
    (mem : Entry.clause mark lits ∈ (document b).entries) : ∀ l ∈ lits, l ≠ 0 := by
  induction h : left b using Nat.strongRecOn generalizing b with
  | ind n ih =>
    have less : ∀ c, (readLine writtenWeight b).rest = some c → left c < left b :=
      fun c rest => readLine_left (fun _ _ _ => writtenWeight_left) rest
    rw [document_eq] at mem
    generalize readLine writtenWeight b = line at less mem
    cases line with
    | stop e => exact absurd mem List.not_mem_nil
    | comment c => exact ih (left c) (h ▸ less c rfl) c mem rfl
    | header top c =>
      rcases List.mem_cons.mp mem with other | mem
      · simp at other
      · exact ih (left c) (h ▸ less c rfl) c mem rfl
    | weighted w c =>
      have smaller := less c rfl
      rw [documentLine] at mem
      cases clause : (writtenClause c).2 with
      | error e =>
        rw [clause] at mem
        exact absurd mem List.not_mem_nil
      | ok d =>
        rw [clause] at mem
        have smaller' := writtenClause_left clause
        rcases List.mem_cons.mp mem with same | mem
        · rw [(Entry.clause.inj same).2]
          exact writtenClause_nonzero c
        · exact ih (left d) (by omega) d mem rfl

def FileEnd.loaded {α : Type} : FileEnd α → Option α
  | .done a => some a
  | _ => none

def bytes (text : String) : List Nat := text.toList.map Char.toNat

end Agreement
end EvalMaxSat
