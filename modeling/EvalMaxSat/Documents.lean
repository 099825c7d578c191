import EvalMaxSat.Refills

/-!
What a file says, with numbers of any size, and how the loader and the checker see it.
-/
namespace EvalMaxSat
open Literals InputStreams InputStream MaxSatSolver

/-- A line of a file: the top weight of the old format, or a clause with its weight. A mark `h` in
the place of a weight is `none`. -/
inductive Entry where
  | top (mark : Option Nat)
  | clause (mark : Option Nat) (lits : Clause)
  deriving DecidableEq, Repr

/-- The lines up to the end of the file or to an error, with the literals of the clause that the
error breaks off. -/
structure Document where
  entries : List Entry
  unfinished : Clause
  ending : Ending
  deriving DecidableEq, Repr

def Document.push (e : Entry) (d : Document) : Document := { d with entries := e :: d.entries }

variable {B S W V : Type} [InputStream B] [MaxSatSolver S]

section Written

/-- `parseInt` without the range of `int`. -/
def writtenInt (b : B) : Except Complaint (Int × B) :=
  let b := skipWhitespace b
  let neg := nextIs (· == '-'.toNat) b
  let b := skipOne (fun c => c == '-'.toNat || c == '+'.toNat) b
  if nextIs isDigit b then
    let (val, b) := parseDigits id b
    .ok (if neg then -val else val, b)
  else .error ⟨"PARSE ERROR!!! Unexpected char in parseInt: ", peek b⟩

/-- `parseWeight` without the range of `unsigned long long`. -/
def writtenWeight (b : B) : Except Complaint (Option Nat × B) :=
  let b := skipWhitespace b
  if nextIs (· == 'h'.toNat) b then
    let b := advance b
    if nextIs (· == ' '.toNat) b then .ok (none, b)
    else .error ⟨"o PARSE ERROR! Unexpected char in parseWeight: ", peek b⟩
  else if nextIs (· == '-'.toNat) b then
    .error ⟨"o PARSE ERROR! Unexpected negative weight", none⟩
  else
    let b := skipOne (· == '+'.toNat) b
    if nextIs isDigit b then
      let (val, b) := parseDigits id b
      .ok (some val.toNat, b)
    else .error ⟨"o PARSE ERROR! Unexpected char in parseWeight: ", peek b⟩

def weightRead (mark : Option Nat) : Nat := mark.elim maxWeight fun w => u64 w

def decimal (val c : Nat) : Nat := val * 10 + (c - '0'.toNat)

theorem decimal_cast (val c : Nat) (digit : isDigit c = true) :
    (val : Int) * 10 + (c - '0'.toNat) = (decimal val c : Nat) := by
  have least : '0'.toNat ≤ c := by
    simp only [isDigit, Bool.and_eq_true, decide_eq_true_eq] at digit
    exact digit.1
  rw [decimal, Nat.cast_add, Nat.cast_mul, Nat.cast_sub least]
  rfl

theorem parseDigits_eq (convert : Int → Int) (zero : convert 0 = 0)
    (steps : ∀ x y : Int, convert (convert x * 10 + y) = convert (x * 10 + y)) (b : B) :
    parseDigits convert b = (convert ((scan isDigit decimal 0 b).1 : Int),
      (scan isDigit decimal 0 b).2) := by
  have mapped : scan isDigit (fun (val : Int) (c : Nat) => convert (val * 10 + (c - '0'.toNat)))
      (convert ((0 : Nat) : Int)) b = _ :=
    scan_map (fun n : Nat => convert (n : Int)) (fun a c digit => by
      rw [steps, decimal_cast a c digit]) 0 b
  rw [Nat.cast_zero, zero] at mapped
  exact mapped

theorem parseInt_written (b : B) :
    parseInt b = (writtenInt b).map fun r => (i32 r.1, r.2) := by
  have steps : ∀ x y : Int, i32 (i32 x * 10 + y) = i32 (x * 10 + y) := by
    intro x y
    simp only [i32]
    rw [← Int.bmod_add_bmod, Int.bmod_mul_bmod, Int.bmod_add_bmod]
  have neg : ∀ a : Int, i32 (-i32 a) = i32 (-a) := by
    intro a
    simp only [i32, Int.bmod_neg_bmod]
  unfold parseInt writtenInt
  dsimp only
  rw [parseDigits_eq i32 (by decide) steps, parseDigits_eq id rfl (fun _ _ => rfl)]
  split
  · simp only [Except.map, neg, id]
    split <;> rfl
  · rfl

theorem parseWeight_written (b : B) :
    parseWeight b = (writtenWeight b).map fun r => (weightRead r.1, r.2) := by
  have steps : ∀ x y : Int, (u64 ((u64 x : Int) * 10 + y) : Int) = u64 (x * 10 + y) := by
    intro x y
    simp only [u64]
    omega
  unfold parseWeight writtenWeight
  dsimp only
  rw [parseDigits_eq (fun x => u64 x) (by decide) steps, parseDigits_eq id rfl (fun _ _ => rfl)]
  split
  · split <;> rfl
  · split
    · rfl
    · split
      · simp only [Except.map, weightRead, Option.elim, id, Int.toNat_natCast]
      · rfl

end Written

section Clauses

variable {b c : B} {x : Int} {mark : Option Nat}

theorem writtenInt_left (read : writtenInt b = .ok (x, c)) : left c < left b := by
  apply parseInt_left (x := i32 x)
  rw [parseInt_written, read]
  rfl

theorem writtenWeight_left (read : writtenWeight b = .ok (mark, c)) : left c < left b := by
  apply parseWeight_left (w := weightRead mark)
  rw [parseWeight_written, read]
  rfl

/-- The literals up to a zero or to an error. -/
def writtenClause (b : B) : Clause × Except Complaint B :=
  match _read : writtenInt b with
  | .error e => ([], .error e)
  | .ok (lit, b) =>
    if lit = 0 then ([], .ok b)
    else (lit :: (writtenClause b).1, (writtenClause b).2)
termination_by left b
decreasing_by all_goals exact writtenInt_left _read

theorem writtenClause_error {e : Complaint} (read : writtenInt b = .error e) :
    writtenClause b = ([], .error e) := by
  rw [writtenClause]
  split
  · rename_i e' read'
    rw [read] at read'
    rw [Except.error.inj read']
  · rename_i lit c read'
    rw [read] at read'
    simp at read'

theorem writtenClause_ok (read : writtenInt b = .ok (x, c)) : writtenClause b =
    if x = 0 then ([], .ok c) else (x :: (writtenClause c).1, (writtenClause c).2) := by
  rw [writtenClause]
  split
  · rename_i e read'
    rw [read] at read'
    simp at read'
  · rename_i lit c' read'
    rw [read] at read'
    simp only [Except.ok.injEq, Prod.mk.injEq] at read'
    rw [← read'.1, ← read'.2]

theorem writtenClause_left (read : (writtenClause b).2 = .ok c) : left c < left b := by
  induction h : left b using Nat.strongRecOn generalizing b with
  | ind n ih =>
    cases first : writtenInt b with
    | error e =>
      rw [writtenClause_error first] at read
      simp at read
    | ok r =>
      obtain ⟨lit, d⟩ := r
      have less := writtenInt_left first
      rw [writtenClause_ok first] at read
      split at read
      · simp only [Except.ok.injEq] at read
        rw [← read]
        omega
      · have := ih (left d) (by omega) read rfl
        omega

/-- A literal that an `int` holds, and its negation as well. -/
def IsInt (l : Int) : Prop := -2 ^ 31 < l ∧ l < 2 ^ 31

instance (l : Int) : Decidable (IsInt l) := inferInstanceAs (Decidable (_ ∧ _))

theorem i32_of_isInt {l : Int} (range : IsInt l) : i32 l = l := by
  obtain ⟨lower, upper⟩ := range
  simp only [i32, Int.bmod]
  omega

theorem readClause_written (b : B) (range : ∀ l ∈ (writtenClause b).1, i32 l = l) :
    readClause b = (writtenClause b).2.map fun c => ((writtenClause b).1, c) := by
  induction h : left b using Nat.strongRecOn generalizing b with
  | ind n ih =>
    have int := parseInt_written b
    cases first : writtenInt b with
    | error e =>
      rw [first] at int
      rw [writtenClause_error first, readClause_error int]
      rfl
    | ok r =>
      obtain ⟨lit, c⟩ := r
      have less := writtenInt_left first
      rw [first] at int
      change parseInt b = .ok (i32 lit, c) at int
      rw [writtenClause_ok first] at range ⊢
      by_cases zero : lit = 0
      · rw [zero] at int
        rw [if_pos zero, readClause_zero int]
        rfl
      · rw [if_neg zero] at range ⊢
        rw [range lit (by simp)] at int
        rw [readClause_lit int zero, ih (left c) (by omega) c (fun l mem => range l (by simp [mem])) rfl]
        cases (writtenClause c).2 <;> rfl

end Clauses

section Lines
variable {b c : B}

def Line.mapWeight (g : W → V) : Line W B → Line V B
  | .stop e => .stop e
  | .comment b => .comment b
  | .header top b => .header (g top) b
  | .weighted w b => .weighted (g w) b

theorem readHeader_map {weight : B → Except Complaint (W × B)} {weight' : B → Except Complaint (V × B)}
    (g : W → V) (maps : ∀ b, weight' b = (weight b).map fun r => (g r.1, r.2)) (b : B) :
    readHeader weight' b = (readHeader weight b).mapWeight g := by
  unfold readHeader
  split
  · split
    · rfl
    · split
      · rfl
      · split
        · rfl
        · rename_i d _
          rw [maps d]
          cases weight d <;> rfl
  · rfl

theorem readLine_map {weight : B → Except Complaint (W × B)} {weight' : B → Except Complaint (V × B)}
    (g : W → V) (maps : ∀ b, weight' b = (weight b).map fun r => (g r.1, r.2)) (b : B) :
    readLine weight' b = (readLine weight b).mapWeight g := by
  unfold readLine
  dsimp only
  split
  · rfl
  · split
    · rfl
    · split
      · exact readHeader_map g maps _
      · rw [maps]
        cases weight (skipWhitespace b) <;> rfl

/-- What the file says. -/
def document (b : B) : Document :=
  match _line : readLine writtenWeight b with
  | .stop e => ⟨[], [], e⟩
  | .comment b => document b
  | .header top b => (document b).push (.top top)
  | .weighted mark b =>
    match _clause : (writtenClause b).2 with
    | .error e => ⟨[], (writtenClause b).1, .exits e⟩
    | .ok c => (document c).push (.clause mark (writtenClause b).1)
termination_by left b
decreasing_by
  · exact readLine_left (fun _ _ _ => writtenWeight_left) (by rw [_line]; rfl)
  · exact readLine_left (fun _ _ _ => writtenWeight_left) (by rw [_line]; rfl)
  · exact (writtenClause_left _clause).trans
      (readLine_left (fun _ _ _ => writtenWeight_left) (by rw [_line]; rfl))

/-- The rest of the file after the start of a line. -/
def documentLine : Line (Option Nat) B → Document
  | .stop e => ⟨[], [], e⟩
  | .comment b => document b
  | .header top b => (document b).push (.top top)
  | .weighted mark b =>
    match (writtenClause b).2 with
    | .error e => ⟨[], (writtenClause b).1, .exits e⟩
    | .ok c => (document c).push (.clause mark (writtenClause b).1)

theorem document_eq (b : B) : document b = documentLine (readLine writtenWeight b) := by
  rw [document]
  split <;> rename_i line <;> rw [line, documentLine]
  split <;> rename_i clause <;> rw [clause]

end Lines

section Loading

/-- A clause as it is added: with a weight when it is soft. -/
abbrev ClauseCall := Clause × Option Int

/-- What the loader makes of the entries, where `top` is the weight from which on a clause is hard. -/
def readCalls : Nat → List Entry → List ClauseCall
  | _, [] => []
  | _, .top mark :: entries => readCalls (weightRead mark) entries
  | top, .clause mark lits :: entries =>
    (lits, if top ≤ weightRead mark then none else some (i64 (weightRead mark))) :: readCalls top entries

/-- The loader adds the hard clauses when it has read them and the soft ones at the end. -/
def performCalls (soft : List (Clause × Int)) (s : S) : List ClauseCall → Ending → FileEnd S
  | [], .endOfFile => addSofts soft (setNInputVars (nVars s) s)
  | [], .exits e => .exits e
  | [], .refused e => .refused (some e) s
  | (lits, none) :: calls, e =>
    match addClause lits none (lits.foldl (fun s lit => createVars lit s) s) with
    | .error e => .exits e
    | .ok s => performCalls soft s calls e
  | (lits, some w) :: calls, e =>
    performCalls (soft ++ [(lits, w)]) (lits.foldl (fun s lit => createVars lit s) s) calls e
where
  addSofts : List (Clause × Int) → S → FileEnd S
    | [], s => .done s
    | (lits, w) :: soft, s =>
      match addClause lits (some w) s with
      | .error e => .exits e
      | .ok s => addSofts soft s

structure Document.All (p : Int → Prop) (d : Document) : Prop where
  clauses : ∀ mark lits, Entry.clause mark lits ∈ d.entries → ∀ l ∈ lits, p l
  unfinished : ∀ l ∈ d.unfinished, p l

abbrev Document.InRange (d : Document) : Prop := d.All IsInt

def Entry.lits : Entry → Clause
  | .top _ => []
  | .clause _ lits => lits

instance (p : Int → Prop) [DecidablePred p] (d : Document) : Decidable (d.All p) :=
  decidable_of_iff ((∀ e ∈ d.entries, ∀ l ∈ e.lits, p l) ∧ ∀ l ∈ d.unfinished, p l)
    ⟨fun h => ⟨fun _ _ mem => h.1 _ mem, h.2⟩, fun h => ⟨fun e mem => by
      cases e with
      | top mark => exact fun l lit => absurd lit List.not_mem_nil
      | clause mark lits => exact h.clauses mark lits mem, h.unfinished⟩⟩

section Kinds
variable {p q : Int → Prop} {d : Document} {e : Entry}

theorem Document.All.mono (all : d.All p) (weaker : ∀ l, p l → q l) : d.All q :=
  ⟨fun mark lits mem l lit => weaker l (all.clauses mark lits mem l lit),
    fun l lit => weaker l (all.unfinished l lit)⟩

theorem Document.InRange.word (range : d.InRange) : d.All fun l => i32 l = l :=
  range.mono fun _ => i32_of_isInt

theorem all_of_push (all : (d.push e).All p) : d.All p :=
  ⟨fun mark lits mem => all.clauses mark lits (List.mem_cons_of_mem e mem), all.unfinished⟩

end Kinds

theorem addSoftClauses_eq (soft : List (Clause × Nat)) (s : S) : addSoftClauses soft s =
    performCalls.addSofts (soft.map fun c => (c.1, i64 c.2)) s := by
  induction soft generalizing s with
  | nil => rfl
  | cons c soft ih =>
    rw [addSoftClauses, List.map_cons, performCalls.addSofts]
    cases addClause c.1 (some (i64 c.2)) s with
    | error e => rfl
    | ok t => exact ih t

/-- The clauses of a file in the classes in which the loader takes them, and what ends the file. -/
def fileCalls (top : Nat) (b : B) : List ClauseCall × Ending :=
  match _line : readLine parseWeight b with
  | .stop e => ([], e)
  | .comment b => fileCalls top b
  | .header top b => fileCalls top b
  | .weighted w b =>
    match _clause : readClause b with
    | .error e => ([], .exits e)
    | .ok (lits, b) =>
      (fileCalls top b).map ((lits, if top ≤ w then none else some (i64 w)) :: ·) id
termination_by left b
decreasing_by
  · exact readLine_left (fun _ _ _ => parseWeight_left) (by rw [_line]; rfl)
  · exact readLine_left (fun _ _ _ => parseWeight_left) (by rw [_line]; rfl)
  · exact Nat.lt_of_le_of_lt (readClause_left _clause)
      (readLine_left (fun _ _ _ => parseWeight_left) (by rw [_line]; rfl))

def lineCalls (top : Nat) : Line Nat B → List ClauseCall × Ending
  | .stop e => ([], e)
  | .comment b => fileCalls top b
  | .header top b => fileCalls top b
  | .weighted w b =>
    match readClause b with
    | .error e => ([], .exits e)
    | .ok (lits, b) =>
      (fileCalls top b).map ((lits, if top ≤ w then none else some (i64 w)) :: ·) id

theorem fileCalls_eq (top : Nat) (b : B) :
    fileCalls top b = lineCalls top (readLine parseWeight b) := by
  rw [fileCalls]
  split <;> rename_i line <;> rw [line, lineCalls]
  split <;> rename_i clause <;> rw [clause]

theorem parseLines_calls (top : Nat) (soft : List (Clause × Nat)) (s : S) (b : B) :
    parseLines top soft s b = performCalls (soft.map fun c => (c.1, i64 c.2)) s
      (fileCalls top b).1 (fileCalls top b).2 := by
  induction h : left b using Nat.strongRecOn generalizing top soft s b with
  | ind n ih =>
    have less : ∀ c, (readLine parseWeight b).rest = some c → left c < left b :=
      fun c rest => readLine_left (fun _ _ _ => parseWeight_left) rest
    rw [parseLines_eq, fileCalls_eq]
    generalize readLine parseWeight b = line at less
    cases line with
    | stop e =>
      cases e with
      | endOfFile => exact addSoftClauses_eq soft (setNInputVars (nVars s) s)
      | exits e => rfl
      | refused e => rfl
    | comment c =>
      have smaller := less c rfl
      exact ih (left c) (by omega) top soft s c rfl
    | header mark c =>
      have smaller := less c rfl
      exact ih (left c) (by omega) mark soft s c rfl
    | weighted w c =>
      have smaller := less c rfl
      rw [parseLine, lineCalls, readClauseFor_eq]
      cases clause : readClause c with
      | error e => rfl
      | ok r =>
        obtain ⟨lits, d⟩ := r
        have smaller' := readClause_left clause
        simp only [Except.map, Prod.map]
        split
        · rw [performCalls]
          cases addClause lits none (lits.foldl (fun s lit => createVars lit s) s) with
          | error e => rfl
          | ok t => exact ih (left d) (by omega) top soft t d rfl
        · rw [performCalls, ih (left d) (by omega) top (soft ++ [(lits, w)]) _ d rfl]
          rw [List.map_append]
          rfl

/-- Where `int`s hold the literals, the calls follow what the file says, with the weights as their
types hold them. -/
theorem fileCalls_document (top : Nat) (b : B) (range : (document b).All fun l => i32 l = l) :
    fileCalls top b = (readCalls top (document b).entries, (document b).ending) := by
  induction h : left b using Nat.strongRecOn generalizing top b with
  | ind n ih =>
    have less : ∀ c, (readLine writtenWeight b).rest = some c → left c < left b :=
      fun c rest => readLine_left (fun _ _ _ => writtenWeight_left) rest
    rw [document_eq] at range
    rw [fileCalls_eq, document_eq, readLine_map weightRead parseWeight_written b]
    generalize readLine writtenWeight b = line at less range
    cases line with
    | stop e => rfl
    | comment c =>
      have smaller := less c rfl
      exact ih (left c) (by omega) top c range rfl
    | header mark c =>
      have smaller := less c rfl
      exact ih (left c) (by omega) (weightRead mark) c (all_of_push range) rfl
    | weighted mark c =>
      have smaller := less c rfl
      rw [Line.mapWeight, lineCalls, documentLine]
      rw [documentLine] at range
      cases clause : (writtenClause c).2 with
      | error e =>
        rw [clause] at range
        rw [readClause_written c range.unfinished, clause]
        rfl
      | ok d =>
        have smaller' := writtenClause_left clause
        rw [clause] at range
        rw [readClause_written c (range.clauses mark _ (by simp [Document.push])), clause]
        simp only [Except.map, ih (left d) (by omega) top d (all_of_push range) rfl]
        rfl

end Loading
end EvalMaxSat
