import EvalMaxSat.InputStreams
import EvalMaxSat.Weights

/-!
The buffered stream of a file and the functions that read its tokens. Characters are bytes, and
the end of the file is `none`.
-/
namespace EvalMaxSat
open InputStreams InputStream

/-- A line on the error stream, with the character that it shows. -/
structure Complaint where
  text : String
  char : Option Nat
  deriving DecidableEq, Repr

/-- A gzip file and the buffer that it is read into. `refills` is what the calls of `gzread` to
come deliver. -/
structure StreamBuffer where
  refills : List (List Nat)
  buf : List Nat
  pos : Nat
  deriving DecidableEq, Repr

namespace StreamBuffer

def assureLookahead (b : StreamBuffer) : StreamBuffer :=
  if b.buf.length ≤ b.pos then
    match b.refills with
    | [] => ⟨[], [], 0⟩
    | buf :: refills => ⟨refills, buf, 0⟩
  else b

/-- The constructor. -/
def start (refills : List (List Nat)) : StreamBuffer := assureLookahead ⟨refills, [], 0⟩

/-- `operator *`. -/
def current (b : StreamBuffer) : Option Nat := b.buf[b.pos]?

/-- `operator ++`. -/
def next (b : StreamBuffer) : StreamBuffer := assureLookahead { b with pos := b.pos + 1 }

/-- What is left of the file. -/
def text (b : StreamBuffer) : List Nat := b.buf.drop b.pos ++ b.refills.flatten

/-- The buffer is empty only at the end of the file, and no refill is. -/
structure Filled (b : StreamBuffer) : Prop where
  ended : b.buf.length ≤ b.pos → b.refills = []
  refills : ∀ r ∈ b.refills, r ≠ []

theorem text_assureLookahead (b : StreamBuffer) : b.assureLookahead.text = b.text := by
  unfold assureLookahead
  split
  · rename_i used
    rw [text, text, List.drop_eq_nil_of_le used]
    split
    · rename_i none_left
      rw [none_left]
      rfl
    · rename_i buf refills more
      rw [more]
      simp
  · rfl

theorem filled_assureLookahead {b : StreamBuffer} (refills : ∀ r ∈ b.refills, r ≠ []) :
    b.assureLookahead.Filled := by
  unfold assureLookahead
  split
  · split
    · exact ⟨fun _ => rfl, by simp⟩
    · rename_i buf rest more
      have nonempty : buf ≠ [] := refills buf (by rw [more]; simp)
      refine ⟨fun used => ?_, fun r mem => refills r (by rw [more]; simp [mem])⟩
      exact absurd (List.length_eq_zero_iff.mp (Nat.le_zero.mp used)) nonempty
  · rename_i unused
    exact ⟨fun used => absurd used unused, refills⟩

theorem text_some {b : StreamBuffer} {c : Nat} (here : b.current = some c) :
    b.text = c :: b.next.text := by
  obtain ⟨inside, same⟩ := List.getElem?_eq_some_iff.mp here
  rw [next, text_assureLookahead, text, text, List.drop_eq_getElem_cons inside, same]
  rfl

theorem text_none {b : StreamBuffer} (filled : b.Filled) (ended : b.current = none) : b.text = [] := by
  have used := List.getElem?_eq_none_iff.mp ended
  rw [text, filled.ended used, List.drop_eq_nil_of_le used]
  rfl

instance : InputStream StreamBuffer where
  peek := current
  advance := next
  left := fun b => b.text.length
  advance_left := by
    intro b c here
    rw [text_some here]
    exact Nat.lt_succ_self _

/-- The stream as the bytes that are left, however they come. -/
def Shows (b : StreamBuffer) (bytes : List Nat) : Prop := b.Filled ∧ b.text = bytes

theorem shows_simulates : Simulates Shows where
  peek := by
    rintro b bytes ⟨filled, rfl⟩
    change b.current = b.text.head?
    cases here : b.current with
    | none => rw [text_none filled here]; rfl
    | some c => rw [text_some here]; rfl
  advance := by
    rintro b bytes c ⟨filled, rfl⟩ here
    change b.current = some c at here
    refine ⟨filled_assureLookahead filled.refills, ?_⟩
    change b.next.text = b.text.tail
    rw [text_some here]
    rfl

theorem shows_start {refills : List (List Nat)} (nonempty : ∀ r ∈ refills, r ≠ []) :
    Shows (start refills) refills.flatten :=
  ⟨filled_assureLookahead nonempty, text_assureLookahead _⟩

end StreamBuffer

section Tokens
variable {B : Type} [InputStream B]

def isSpace (c : Nat) : Bool := (9 ≤ c && c ≤ 13) || c == 32

def isDigit (c : Nat) : Bool := '0'.toNat ≤ c && c ≤ '9'.toNat

def skipWhitespace (b : B) : B := (scan isSpace (fun a _ => a) () b).2

/-- Behind the end of the line, or at the end of the file. -/
def skipLine (b : B) : B :=
  let b := (scan (fun c => c != '\n'.toNat) (fun a _ => a) () b).2
  if nextIs (fun _ => true) b then advance b else b

/-- `if(p(*in)) ++in;`. -/
def skipOne (p : Nat → Bool) (b : B) : B := if nextIs p b then advance b else b

/-- The digits of a number; `convert` is what its type does to each value on the way. -/
def parseDigits (convert : Int → Int) (b : B) : Int × B :=
  scan isDigit (fun val c => convert (val * 10 + (c - '0'.toNat))) 0 b

def parseInt (b : B) : Except Complaint (Int × B) :=
  let b := skipWhitespace b
  let neg := nextIs (· == '-'.toNat) b
  let b := skipOne (fun c => c == '-'.toNat || c == '+'.toNat) b
  if nextIs isDigit b then
    let (val, b) := parseDigits i32 b
    .ok (if neg then i32 (-val) else val, b)
  else .error ⟨"PARSE ERROR!!! Unexpected char in parseInt: ", peek b⟩

def parseWeight (b : B) : Except Complaint (Nat × B) :=
  let b := skipWhitespace b
  if nextIs (· == 'h'.toNat) b then
    let b := advance b
    if nextIs (· == ' '.toNat) b then .ok (maxWeight, b)
    else .error ⟨"o PARSE ERROR! Unexpected char in parseWeight: ", peek b⟩
  else if nextIs (· == '-'.toNat) b then
    .error ⟨"o PARSE ERROR! Unexpected negative weight", none⟩
  else
    let b := skipOne (· == '+'.toNat) b
    if nextIs isDigit b then
      let (val, b) := parseDigits (fun x => u64 x) b
      .ok (val.toNat, b)
    else .error ⟨"o PARSE ERROR! Unexpected char in parseWeight: ", peek b⟩

def eagerMatch : List Char → B → Bool × B
  | [], b => (true, b)
  | c :: str, b => if nextIs (· == c.toNat) b then eagerMatch str (advance b) else (false, b)

section Progress
variable {b c : B} {x : Int} {w : Nat}

theorem skipWhitespace_left (b : B) : left (skipWhitespace b) ≤ left b := scan_left _ _ _ _

theorem advance_le {p : Nat → Bool} (here : nextIs p b = true) : left (advance b) < left b := by
  cases next : peek b with
  | none =>
    rw [nextIs, next] at here
    simp at here
  | some d => exact advance_left b d next

theorem skipLine_left (here : nextIs (fun _ => true) b = true) : left (skipLine b) < left b := by
  unfold skipLine
  dsimp only
  by_cases stays : nextIs (fun c => c != '\n'.toNat) b = true
  · have less := scan_less (f := fun (a : Unit) _ => a) (a := ()) stays
    split
    · rename_i more
      have := advance_le more
      omega
    · exact less
  · have same : (scan (fun c => c != '\n'.toNat) (fun (a : Unit) _ => a) () b).2 = b := by
      cases next : peek b with
      | none => rw [scan_none next]
      | some d =>
        rw [nextIs, next, Option.any_some] at stays
        rw [scan_some next, if_neg stays]
    rw [same, if_pos here]
    exact advance_le here

theorem skipOne_left (p : Nat → Bool) (b : B) : left (skipOne p b) ≤ left b := by
  unfold skipOne
  split
  · rename_i here
    exact Nat.le_of_lt (advance_le here)
  · exact Nat.le_refl _

theorem parseDigits_left (convert : Int → Int) (digit : nextIs isDigit b = true) :
    left (parseDigits convert b).2 < left b := scan_less digit

theorem parseInt_left (read : parseInt b = .ok (x, c)) : left c < left b := by
  unfold parseInt at read
  dsimp only at read
  split at read
  · rename_i digit
    have first := skipWhitespace_left b
    have second := skipOne_left (fun c => c == '-'.toNat || c == '+'.toNat) (skipWhitespace b)
    have third := parseDigits_left i32 digit
    simp only [Except.ok.injEq, Prod.mk.injEq] at read
    rw [← read.2]
    omega
  · simp at read

theorem parseWeight_left (read : parseWeight b = .ok (w, c)) : left c < left b := by
  have first := skipWhitespace_left b
  unfold parseWeight at read
  dsimp only at read
  split at read
  · rename_i mark
    have second := advance_le mark
    split at read
    · simp only [Except.ok.injEq, Prod.mk.injEq] at read
      rw [← read.2]
      omega
    · simp at read
  · split at read
    · simp at read
    · split at read
      · rename_i digit
        have second := skipOne_left (· == '+'.toNat) (skipWhitespace b)
        have third := parseDigits_left (fun x => u64 x) digit
        simp only [Except.ok.injEq, Prod.mk.injEq] at read
        rw [← read.2]
        omega
      · simp at read

theorem eagerMatch_left (str : List Char) (b : B) : left (eagerMatch str b).2 ≤ left b := by
  induction str generalizing b with
  | nil => exact Nat.le_refl _
  | cons c str ih =>
    rw [eagerMatch]
    split
    · rename_i here
      exact (ih (advance b)).trans (Nat.le_of_lt (advance_le here))
    · exact Nat.le_refl _

end Progress
end Tokens
end EvalMaxSat
