import EvalMaxSat.MainProgram

/-!
What the program prints can be read back: the cost, and the values of the variables in either
output format.
-/
namespace EvalMaxSat
open Literals InputStreams InputStream

variable {solution other : List Bool}

section Numbers

theorem decimal_fold (cs : List Char) (n : Nat) :
    (cs.map Char.toNat).foldl decimal n = Nat.ofDigitChars 10 cs n := by
  induction cs generalizing n with
  | nil => rfl
  | cons c cs ih =>
    rw [List.map_cons, List.foldl_cons, ih, Nat.ofDigitChars_cons, decimal, Nat.mul_comm]

theorem decimalText_digits (n : Nat) : Digits n (decimalText n) where
  nonempty := by
    unfold decimalText
    simp
  digits := by
    intro c mem
    obtain ⟨d, digit, rfl⟩ := List.mem_map.mp mem
    have range := Nat.isDigit_of_mem_toDigits (by decide) (by decide) digit
    simp only [Char.isDigit, Bool.and_eq_true, decide_eq_true_eq] at range
    simp only [isDigit, Bool.and_eq_true, decide_eq_true_eq]
    exact ⟨UInt32.le_iff_toNat_le.mp range.1, UInt32.le_iff_toNat_le.mp range.2⟩
  value := by
    unfold decimalText
    rw [decimal_fold, Nat.ofDigitChars_ten_toDigits]

/-- A printed number of 64 bits is read back by the function that reads weights. -/
theorem printed_weight {n : Nat} (word : n < 2 ^ 64) {text : List Nat}
    (stops : nextIs isDigit text = false) : parseWeight (decimalText n ++ text) = .ok (n, text) := by
  have blank : Blank [] := by simp [Blank]
  have written := writtenWeight_text blank (.plain (decimalText_digits n)) stops
  rw [List.nil_append] at written
  rw [parseWeight_written, written]
  exact congrArg (fun w => Except.ok (w, text)) (weightRead_some word)

end Numbers

section Values

def shownLit (solution : List Bool) (i : Nat) : Int := if solution.getD i false then i else -i

def shownLits (solution : List Bool) : Clause :=
  (List.range' 1 (solution.length - 1)).map (shownLit solution)

theorem shownLit_nonzero {i : Nat} (positive : 1 ≤ i) : shownLit solution i ≠ 0 := by
  unfold shownLit
  split <;> omega

theorem shownLit_true {i : Nat} (positive : 1 ≤ i) (m : Assignment) :
    litTrue m (shownLit solution i) = true ↔ m i = assignment solution i := by
  unfold shownLit assignment
  cases solution.getD i false with
  | true =>
    have sign : i ≠ 0 := by omega
    simp [litTrue, sign]
  | false => simp [litTrue]

theorem shownLits_agree (m : Assignment) : (∀ l ∈ shownLits solution, litTrue m l = true) ↔
    ∀ v, 1 ≤ v → v < solution.length → m v = assignment solution v := by
  unfold shownLits
  constructor
  · intro all v positive inside
    have shown := all (shownLit solution v) (List.mem_map.mpr
      ⟨v, List.mem_range'_1.mpr (by omega), rfl⟩)
    exact (shownLit_true positive m).mp shown
  · intro agree l mem
    obtain ⟨v, inside, rfl⟩ := List.mem_map.mp mem
    have bounds := List.mem_range'_1.mp inside
    exact (shownLit_true bounds.1 m).mpr (agree v bounds.1 (by omega))

theorem shownLits_values (solution : List Bool) :
    (shownLits solution).map (fun l => decide (0 < l)) = solution.drop 1 := by
  unfold shownLits
  apply List.ext_getElem
  · simp
  · intro i left right
    simp only [List.length_map, List.length_range', List.length_drop] at left right
    have inside : 1 + i < solution.length := by omega
    simp only [List.getElem_map, List.getElem_range', List.getElem_drop, Nat.one_mul, shownLit,
      List.getD_eq_getElem?_getD, List.getElem?_eq_getElem inside, Option.getD_some]
    cases solution[1 + i] with
    | true => simp; omega
    | false => simp

theorem literalText_shown {i : Nat} : ∃ word, literalText solution i = [' '.toNat] ++ word ∧
    IntText (shownLit solution i) word := by
  unfold literalText shownLit
  cases solution.getD i false with
  | true => exact ⟨decimalText i, rfl, .plain (decimalText_digits i)⟩
  | false => exact ⟨'-'.toNat :: decimalText i, rfl, .minus (decimalText_digits i)⟩

theorem literalsText_clause {is : List Nat} (positive : ∀ i ∈ is, 1 ≤ i) :
    ClauseText (is.map (shownLit solution))
      (is.flatMap (literalText solution) ++ (newline ++ bytes "0")) := by
  induction is with
  | nil =>
    have gap : Gap newline := by simp [Gap, Blank, newline, isSpace]
    have ends : ClauseText [] (newline ++ bytes "0") :=
      .zero gap (.plain (decimalText_digits 0))
    exact ends
  | cons i is ih =>
    obtain ⟨word, text, int⟩ := @literalText_shown solution i
    have rest := ih (fun j mem => positive j (List.mem_cons_of_mem i mem))
    rw [List.map_cons, List.flatMap_cons, text, List.append_assoc, List.append_assoc]
    apply ClauseText.lit _ (shownLit_nonzero (positive i List.mem_cons_self)) int rest
    simp [Gap, Blank, isSpace]

/-- The values of the old output format as a clause: the line without its first character, and
a zero in the next line. -/
def valuesClause (solution : List Bool) : List Nat :=
  (oldValues solution).drop 1 ++ (newline ++ bytes "0")

theorem writtenClause_values (solution : List Bool) :
    writtenClause (valuesClause solution) = (shownLits solution, .ok []) := by
  have positive : ∀ i ∈ List.range' 1 (solution.length - 1), 1 ≤ i :=
    fun i mem => (List.mem_range'_1.mp mem).1
  have stops : nextIs isDigit ([] : List Nat) = false := rfl
  have written := writtenClause_text (@literalsText_clause solution _ positive) stops
  rw [List.append_nil] at written
  exact written

theorem newValues_shown (solution : List Bool) :
    ((newValues solution).drop 2).map (· == '1'.toNat) = solution.drop 1 := by
  have rest : (newValues solution).drop 2 =
      (solution.drop 1).map fun value => if value then '1'.toNat else '0'.toNat := rfl
  rw [rest, List.map_map]
  apply List.map_id''
  intro value
  cases value <;> rfl

theorem oldValues_injective (same : oldValues other = oldValues solution) :
    other.drop 1 = solution.drop 1 := by
  have clause : valuesClause other = valuesClause solution := by
    unfold valuesClause
    rw [same]
  have lits : shownLits other = shownLits solution := by
    have first := writtenClause_values other
    rw [clause, writtenClause_values] at first
    exact (Prod.mk.inj first).1.symm
  rw [← shownLits_values, ← shownLits_values, lits]

theorem newValues_injective (same : newValues other = newValues solution) :
    other.drop 1 = solution.drop 1 := by
  rw [← newValues_shown, ← newValues_shown, same]

end Values

section Answers

/-- An answer can be read back with the functions that read files: the cost behind its first
two characters, and the values, which the old format writes as literals that are true exactly
where an assignment agrees with the solution; in both formats no other values print the same. -/
theorem answers_read_back (old : Bool) (status : String) (cost : Nat) (solution : List Bool)
    (word : cost < 2 ^ 64) (short : solution.length ≤ 2 ^ 31) :
    parseWeight (answerText old status cost solution) =
      .ok (cost, newline ++ bytes status ++ newline ++ valuesText old solution ++ newline) ∧
    readClause (valuesClause solution) = .ok (shownLits solution, []) ∧
    (∀ m, (∀ l ∈ shownLits solution, litTrue m l = true) ↔
      ∀ v, 1 ≤ v → v < solution.length → m v = assignment solution v) ∧
    ∀ other, valuesText old other = valuesText old solution →
      other.drop 1 = solution.drop 1 := by
  constructor
  · unfold answerText
    rw [List.append_assoc, List.append_assoc, List.append_assoc, List.append_assoc,
      printed_weight word rfl]
    simp only [List.append_assoc]
  constructor
  · have written := writtenClause_values solution
    have range : ∀ l ∈ (writtenClause (valuesClause solution)).1, IsInt l := by
      rw [written]
      intro l mem
      obtain ⟨i, inside, rfl⟩ := List.mem_map.mp mem
      have bounds := List.mem_range'_1.mp inside
      unfold IsInt shownLit
      split <;> omega
    rw [readClause_written _ fun l mem => i32_of_isInt (range l mem), written]
    rfl
  constructor
  · exact fun m => shownLits_agree m
  · intro other same
    cases old with
    | true => exact oldValues_injective same
    | false => exact newValues_injective same

theorem answers_read_back_small :
    parseWeight (answerText true "s OPTIMUM FOUND" 20 [false, true, false]) =
      .ok (20, newline ++ bytes "s OPTIMUM FOUND" ++ newline ++
        valuesText true [false, true, false] ++ newline) ∧
    readClause (valuesClause [false, true, false]) = .ok (shownLits [false, true, false], []) ∧
    (∀ m, (∀ l ∈ shownLits [false, true, false], litTrue m l = true) ↔
      ∀ v, 1 ≤ v → v < 3 → m v = assignment [false, true, false] v) ∧
    ∀ other, valuesText true other = valuesText true [false, true, false] →
      other.drop 1 = [true, false] :=
  answers_read_back true "s OPTIMUM FOUND" 20 [false, true, false] (by decide) (by decide)

end Answers
end EvalMaxSat
