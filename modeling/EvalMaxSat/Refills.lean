import EvalMaxSat.FileReading

/-!
The readers see only the characters that come next, so that it does not matter how `gzread` cuts
a file into refills of the buffer.
-/
namespace EvalMaxSat
open Literals InputStreams InputStream MaxSatSolver

variable {B C S W : Type} [InputStream B] [InputStream C] [MaxSatSolver S] {R : B → C → Prop}
  {b : B} {c : C} {p : Nat → Bool}

section Tokens

theorem advance_simulates (sim : Simulates R) (related : R b c) (here : nextIs p b = true) :
    R (advance b) (advance c) := by
  cases next : peek b with
  | none =>
    rw [nextIs, next] at here
    simp at here
  | some x => exact sim.advance related next

theorem skipWhitespace_simulates (sim : Simulates R) (related : R b c) :
    R (skipWhitespace b) (skipWhitespace c) := (scan_simulates sim _ _ related).2

theorem skipOne_simulates (sim : Simulates R) (related : R b c) : R (skipOne p b) (skipOne p c) := by
  unfold skipOne
  rw [← nextIs_simulates sim related]
  split
  · rename_i here
    exact advance_simulates sim related here
  · exact related

theorem skipLine_simulates (sim : Simulates R) (related : R b c) : R (skipLine b) (skipLine c) := by
  have scanned := (scan_simulates sim (fun (a : Unit) _ => a) () related
    (p := fun c => c != '\n'.toNat)).2
  unfold skipLine
  dsimp only
  rw [← nextIs_simulates sim scanned]
  split
  · rename_i here
    exact advance_simulates sim scanned here
  · exact scanned

theorem parseInt_simulates (sim : Simulates R) (related : R b c) :
    Agree R (parseInt b) (parseInt c) := by
  have blank := skipWhitespace_simulates sim related
  have sign := skipOne_simulates sim blank (p := fun c => c == '-'.toNat || c == '+'.toNat)
  obtain ⟨value, digits⟩ := scan_simulates sim
    (fun val c => i32 (val * 10 + (c - '0'.toNat))) 0 sign (p := isDigit)
  unfold parseInt parseDigits
  dsimp only
  rw [← nextIs_simulates sim blank, ← nextIs_simulates sim sign, ← value, sim.peek sign]
  split
  · exact Agree.ok digits
  · exact Agree.error _

theorem parseWeight_simulates (sim : Simulates R) (related : R b c) :
    Agree R (parseWeight b) (parseWeight c) := by
  have blank := skipWhitespace_simulates sim related
  have sign := skipOne_simulates sim blank (p := (· == '+'.toNat))
  obtain ⟨value, digits⟩ := scan_simulates sim
    (fun val c => (u64 (val * 10 + (c - '0'.toNat)) : Int)) 0 sign (p := isDigit)
  unfold parseWeight parseDigits
  dsimp only
  rw [← nextIs_simulates sim blank, ← nextIs_simulates sim blank]
  split
  · rename_i mark
    have behind := advance_simulates sim blank mark
    rw [← nextIs_simulates sim behind, sim.peek behind]
    split
    · exact Agree.ok behind
    · exact Agree.error _
  · split
    · exact Agree.error _
    · rw [← nextIs_simulates sim sign, ← value, sim.peek sign]
      split
      · exact Agree.ok digits
      · exact Agree.error _

theorem eagerMatch_simulates (sim : Simulates R) (str : List Char) (related : R b c) :
    (eagerMatch str b).1 = (eagerMatch str c).1 ∧ R (eagerMatch str b).2 (eagerMatch str c).2 := by
  induction str generalizing b c with
  | nil => exact ⟨rfl, related⟩
  | cons x str ih =>
    rw [eagerMatch, eagerMatch, ← nextIs_simulates sim related]
    split
    · rename_i here
      exact ih (advance_simulates sim related here)
    · exact ⟨rfl, related⟩

end Tokens

section Lines

inductive AgreeLine (R : B → C → Prop) : Line W B → Line W C → Prop
  | stop (e : Ending) : AgreeLine R (.stop e) (.stop e)
  | comment {b : B} {c : C} : R b c → AgreeLine R (.comment b) (.comment c)
  | header {b : B} {c : C} (top : W) : R b c → AgreeLine R (.header top b) (.header top c)
  | weighted {b : B} {c : C} (w : W) : R b c → AgreeLine R (.weighted w b) (.weighted w c)

variable {weight : B → Except Complaint (W × B)} {weight' : C → Except Complaint (W × C)}

theorem readHeader_simulates (sim : Simulates R)
    (weights : ∀ {b c}, R b c → Agree R (weight b) (weight' c)) (related : R b c) :
    AgreeLine R (readHeader weight b) (readHeader weight' c) := by
  have stops : ∀ {b c}, R b c → AgreeLine R (.stop (.refused (unexpected b)) : Line W B)
      (.stop (.refused (unexpected c))) := by
    intro b c related
    unfold unexpected
    rw [sim.peek related]
    exact AgreeLine.stop _
  unfold readHeader
  rw [← nextIs_simulates sim related]
  split
  · obtain ⟨matched, behind⟩ := eagerMatch_simulates sim ['w', 'c', 'n', 'f']
      (skipWhitespace_simulates sim related)
    generalize eagerMatch ['w', 'c', 'n', 'f'] (skipWhitespace b) = x at matched behind
    generalize eagerMatch ['w', 'c', 'n', 'f'] (skipWhitespace c) = y at matched behind
    obtain ⟨m, b₁⟩ := x
    obtain ⟨m', c₁⟩ := y
    dsimp only at matched behind
    subst matched
    cases m with
    | false => exact stops behind
    | true =>
      rcases agree_cases (parseInt_simulates sim behind) with
        ⟨e, readB, readC⟩ | ⟨vars, b₂, c₂, readB, readC, behind⟩
      · simp only [readB, readC]
        exact AgreeLine.stop _
      · simp only [readB, readC]
        rcases agree_cases (parseInt_simulates sim behind) with
          ⟨e, readB, readC⟩ | ⟨clauses, b₃, c₃, readB, readC, behind⟩
        · simp only [readB, readC]
          exact AgreeLine.stop _
        · simp only [readB, readC]
          rcases agree_cases (weights behind) with
            ⟨e, readB, readC⟩ | ⟨top, b₄, c₄, readB, readC, behind⟩
          · simp only [readB, readC]
            exact AgreeLine.stop _
          · simp only [readB, readC]
            exact AgreeLine.header top behind
  · exact stops related

theorem readLine_simulates (sim : Simulates R)
    (weights : ∀ {b c}, R b c → Agree R (weight b) (weight' c)) (related : R b c) :
    AgreeLine R (readLine weight b) (readLine weight' c) := by
  have blank := skipWhitespace_simulates sim related
  unfold readLine
  dsimp only
  rw [← sim.peek blank]
  cases next : peek (skipWhitespace b) with
  | none => exact AgreeLine.stop _
  | some x =>
    dsimp only
    split
    · exact AgreeLine.comment (skipLine_simulates sim blank)
    · split
      · exact readHeader_simulates sim weights (sim.advance blank next)
      · rcases agree_cases (weights blank) with ⟨e, readB, readC⟩ | ⟨w, b', c', readB, readC, behind⟩
        · rw [readB, readC]
          exact AgreeLine.stop _
        · rw [readB, readC]
          exact AgreeLine.weighted w behind

theorem readClause_simulates (sim : Simulates R) (related : R b c) :
    Agree R (readClause b) (readClause c) := by
  induction h : left b using Nat.strongRecOn generalizing b c with
  | ind n ih =>
    rcases agree_cases (parseInt_simulates sim related) with
      ⟨e, readB, readC⟩ | ⟨lit, b', c', readB, readC, behind⟩
    · rw [readClause_error readB, readClause_error readC]
      exact Agree.error e
    · have less := parseInt_left readB
      by_cases zero : lit = 0
      · rw [zero] at readB readC
        rw [readClause_zero readB, readClause_zero readC]
        exact Agree.ok behind
      · rw [readClause_lit readB zero, readClause_lit readC zero]
        rcases agree_cases (ih (left b') (by omega) behind rfl) with
          ⟨e, restB, restC⟩ | ⟨lits, b₂, c₂, restB, restC, behind⟩
        · rw [restB, restC]
          exact Agree.error e
        · rw [restB, restC]
          exact Agree.ok behind

theorem parseLines_simulates (sim : Simulates R) (h : Nat) (soft : List (Clause × Nat)) (s : S)
    (related : R b c) : parseLines h soft s b = parseLines h soft s c := by
  induction size : left b using Nat.strongRecOn generalizing b c h soft s with
  | ind n ih =>
    have line := readLine_simulates sim (parseWeight_simulates sim) related
    have less : ∀ b', (readLine parseWeight b).rest = some b' → left b' < left b :=
      fun b' rest => readLine_left (fun _ _ _ => parseWeight_left) rest
    rw [parseLines_eq, parseLines_eq]
    generalize readLine parseWeight b = x at line less
    generalize readLine parseWeight c = y at line
    cases line with
    | stop e => cases e <;> rfl
    | @comment b' c' behind =>
      have smaller := less b' rfl
      exact ih (left b') (by omega) h soft s behind rfl
    | @header b' c' top behind =>
      have smaller := less b' rfl
      exact ih (left b') (by omega) top soft s behind rfl
    | @weighted b' c' w behind =>
      have smaller := less b' rfl
      rw [parseLine, parseLine, readClauseFor_eq, readClauseFor_eq]
      rcases agree_cases (readClause_simulates sim behind) with
        ⟨e, readB, readC⟩ | ⟨lits, d, d', readB, readC, behind⟩
      · rw [readB, readC]
        rfl
      · have further := readClause_left readB
        rw [readB, readC]
        simp only [Except.map]
        split
        · cases addClause lits none (lits.foldl (fun s lit => createVars lit s) s) with
          | error e => rfl
          | ok t => exact ih (left d) (by omega) h soft t behind rfl
        · exact ih (left d) (by omega) h (soft ++ [(lits, w)]) _ behind rfl

end Lines

section Files
variable {refills : List (List Nat)}

/-- Loading a file is the same however its bytes come. -/
theorem parse_refills (nonempty : ∀ r ∈ refills, r ≠ []) (s : S) :
    parse s (StreamBuffer.start refills) = parse s refills.flatten := by
  have shows := StreamBuffer.shows_start nonempty
  rw [parse, parse, StreamBuffer.shows_simulates.peek shows,
    parseLines_simulates StreamBuffer.shows_simulates maxWeight [] s shows]

end Files
end EvalMaxSat
