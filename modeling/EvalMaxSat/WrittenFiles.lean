import EvalMaxSat.Documents

/-!
Files as they are written: numbers with optional signs, any white space between them, and comments
between the lines. Reading such a file gives back what was written.
-/
namespace EvalMaxSat
open Literals InputStreams InputStream

section Texts

def Blank (gap : List Nat) : Prop := ∀ c ∈ gap, isSpace c = true

def Gap (gap : List Nat) : Prop := gap ≠ [] ∧ Blank gap

/-- Decimal digits of a number, with or without zeros in front. -/
structure Digits (n : Nat) (word : List Nat) : Prop where
  nonempty : word ≠ []
  digits : ∀ c ∈ word, isDigit c = true
  value : word.foldl decimal 0 = n

inductive IntText : Int → List Nat → Prop
  | plain {n : Nat} {word : List Nat} : Digits n word → IntText n word
  | plus {n : Nat} {word : List Nat} : Digits n word → IntText n ('+'.toNat :: word)
  | minus {n : Nat} {word : List Nat} : Digits n word → IntText (-n) ('-'.toNat :: word)

inductive WeightText : Nat → List Nat → Prop
  | plain {n : Nat} {word : List Nat} : Digits n word → WeightText n word
  | plus {n : Nat} {word : List Nat} : Digits n word → WeightText n ('+'.toNat :: word)

/-- The literals of a clause and the zero that ends it. -/
inductive ClauseText : Clause → List Nat → Prop
  | zero {gap word : List Nat} : Gap gap → IntText 0 word → ClauseText [] (gap ++ word)
  | lit {gap word text : List Nat} {l : Int} {lits : Clause} : Gap gap → l ≠ 0 → IntText l word →
      ClauseText lits text → ClauseText (l :: lits) (gap ++ (word ++ text))

inductive EntryText : Entry → List Nat → Prop
  | top {gap gap₁ gap₂ gap₃ vars clauses weight : List Nat} {v c : Int} {top : Nat} : Blank gap →
      Gap gap₁ → IntText v vars → Gap gap₂ → IntText c clauses → Gap gap₃ → WeightText top weight →
      EntryText (.top (some top)) ('p'.toNat :: ' '.toNat :: (gap ++ (['w', 'c', 'n', 'f'].map
        Char.toNat ++ (gap₁ ++ (vars ++ (gap₂ ++ (clauses ++ (gap₃ ++ weight))))))))
  | hard {text : List Nat} {lits : Clause} : ClauseText lits text →
      nextIs (· == ' '.toNat) text = true → EntryText (.clause none lits) ('h'.toNat :: text)
  | soft {weight text : List Nat} {w : Nat} {lits : Clause} : WeightText w weight →
      ClauseText lits text → EntryText (.clause (some w) lits) (weight ++ text)

/-- Entries with white space between them and comments, the last of which may end the file. -/
inductive FileText : List Entry → List Nat → Prop
  | blank {gap : List Nat} : Blank gap → FileText [] gap
  | remark {gap words : List Nat} : Blank gap → '\n'.toNat ∉ words →
      FileText [] (gap ++ 'c'.toNat :: words)
  | comment {gap words text : List Nat} {entries : List Entry} : Blank gap → '\n'.toNat ∉ words →
      FileText entries text → FileText entries (gap ++ 'c'.toNat :: (words ++ '\n'.toNat :: text))
  | entry {gap word text : List Nat} {e : Entry} {entries : List Entry} : Blank gap →
      EntryText e word → text = [] ∨ nextIs isSpace text = true → FileText entries text →
      FileText (e :: entries) (gap ++ (word ++ text))

end Texts

section Tokens
variable {gap word text : List Nat} {n w : Nat} {l : Int} {lits : Clause}

theorem not_digit_of_space {c : Nat} (space : isSpace c = true) : isDigit c = false := by
  simp only [isSpace, Bool.or_eq_true, Bool.and_eq_true, decide_eq_true_eq, beq_iff_eq] at space
  simp only [isDigit, Char.reduceToNat, Bool.and_eq_false_iff, decide_eq_false_iff_not]
  omega

theorem not_space_of_digit {c : Nat} (digit : isDigit c = true) : isSpace c = false := by
  cases space : isSpace c with
  | false => rfl
  | true =>
    rw [not_digit_of_space space] at digit
    simp at digit

theorem nextIs_append {p : Nat → Bool} (nonempty : word ≠ []) (all : ∀ c ∈ word, p c = true)
    (text : List Nat) : nextIs p (word ++ text) = true := by
  cases word with
  | nil => exact absurd rfl nonempty
  | cons c word => exact all c (by simp)

theorem nextIs_mono {p q : Nat → Bool} (sub : ∀ c, p c = true → q c = false)
    (here : nextIs p text = true) : nextIs q text = false := by
  cases text with
  | nil => rfl
  | cons c text => exact sub c here

theorem skipWhitespace_blank (blank : Blank gap) (stops : nextIs isSpace text = false) :
    skipWhitespace (gap ++ text) = text := by
  rw [skipWhitespace, scan_word blank stops]

theorem parseDigits_text (digits : Digits n word) (stops : nextIs isDigit text = false) :
    parseDigits id (word ++ text) = ((n : Int), text) := by
  rw [parseDigits_eq id rfl (fun _ _ => rfl), scan_word digits.digits stops, digits.value]
  rfl

theorem skipOne_not {p : Nat → Bool} (other : nextIs p text = false) : skipOne p text = text := by
  rw [skipOne, other]
  rfl

theorem skipOne_here {p : Nat → Bool} {c : Nat} (here : p c = true) : skipOne p (c :: text) = text :=
  if_pos here

theorem digit_alone {c : Nat} (digit : isDigit c = true) : isSpace c = false ∧
    (c == '-'.toNat) = false ∧ (c == '+'.toNat) = false ∧ (c == 'h'.toNat) = false ∧
    (c == 'c'.toNat) = false ∧ (c == 'p'.toNat) = false := by
  refine ⟨not_space_of_digit digit, ?_⟩
  simp only [isDigit, Char.reduceToNat, Bool.and_eq_true, decide_eq_true_eq] at digit
  simp only [Char.reduceToNat, beq_eq_false_iff_ne]
  omega

theorem digits_start (digits : Digits n word) (text : List Nat) :
    nextIs isDigit (word ++ text) = true := nextIs_append digits.nonempty digits.digits text

theorem digits_no_space (digits : Digits n word) (text : List Nat) :
    nextIs isSpace (word ++ text) = false :=
  nextIs_mono (fun _ digit => (digit_alone digit).1) (digits_start digits text)

theorem writtenInt_text (blank : Blank gap) (int : IntText l word)
    (stops : nextIs isDigit text = false) : writtenInt (gap ++ (word ++ text)) = .ok (l, text) := by
  cases int with
  | @plain n word digits =>
    have start := digits_start digits text
    have unsigned : nextIs (fun c => c == '-'.toNat || c == '+'.toNat) (word ++ text) = false :=
      nextIs_mono (fun _ digit => by
        rw [(digit_alone digit).2.1, (digit_alone digit).2.2.1]
        rfl) start
    have positive : nextIs (· == '-'.toNat) (word ++ text) = false :=
      nextIs_mono (fun _ digit => (digit_alone digit).2.1) start
    unfold writtenInt
    dsimp only
    rw [skipWhitespace_blank blank (digits_no_space digits text), skipOne_not unsigned, if_pos start,
      positive, parseDigits_text digits stops]
    rfl
  | @plus n word digits =>
    unfold writtenInt
    dsimp only
    rw [skipWhitespace_blank blank (by rfl), List.cons_append, skipOne_here (by rfl),
      if_pos (digits_start digits text), parseDigits_text digits stops]
    rfl
  | @minus n word digits =>
    unfold writtenInt
    dsimp only
    rw [skipWhitespace_blank blank (by rfl), List.cons_append, skipOne_here (by rfl),
      if_pos (digits_start digits text), parseDigits_text digits stops]
    rfl

theorem weight_no_space (weight : WeightText w word) (text : List Nat) :
    nextIs isSpace (word ++ text) = false := by
  cases weight with
  | plain digits => exact digits_no_space digits text
  | plus digits => rfl

theorem weight_start (weight : WeightText w word) (text : List Nat) : ∃ c rest,
    word ++ text = c :: rest ∧ c ≠ 'c'.toNat ∧ c ≠ 'p'.toNat := by
  cases weight with
  | plain digits =>
    obtain ⟨c, rest, shape⟩ := List.exists_cons_of_ne_nil digits.nonempty
    have alone := digit_alone (digits.digits c (by rw [shape]; simp))
    refine ⟨c, rest ++ text, by rw [shape]; rfl, ?_⟩
    simp only [beq_eq_false_iff_ne] at alone
    exact alone.2.2.2.2
  | plus digits => exact ⟨'+'.toNat, _, rfl, by decide, by decide⟩

theorem writtenWeight_text (blank : Blank gap) (weight : WeightText w word)
    (stops : nextIs isDigit text = false) :
    writtenWeight (gap ++ (word ++ text)) = .ok (some w, text) := by
  cases weight with
  | plain digits =>
    have start := digits_start digits text
    have other : ∀ p : Nat → Bool, (∀ c, isDigit c = true → p c = false) →
        nextIs p (word ++ text) = false := fun p sub => nextIs_mono sub start
    unfold writtenWeight
    dsimp only
    rw [skipWhitespace_blank blank (digits_no_space digits text),
      other _ fun _ digit => (digit_alone digit).2.2.2.1, other _ fun _ digit => (digit_alone digit).2.1,
      skipOne_not (other _ fun _ digit => (digit_alone digit).2.2.1), if_neg (by simp),
      if_neg (by simp), if_pos start, parseDigits_text digits stops]
    rfl
  | @plus word digits =>
    have mark : nextIs (· == 'h'.toNat) ('+'.toNat :: (word ++ text)) = false := rfl
    have minus : nextIs (· == '-'.toNat) ('+'.toNat :: (word ++ text)) = false := rfl
    unfold writtenWeight
    dsimp only
    rw [skipWhitespace_blank blank (by rfl), List.cons_append, mark, minus, skipOne_here (by rfl),
      if_neg (by simp), if_neg (by simp), if_pos (digits_start digits text),
      parseDigits_text digits stops]
    rfl

theorem gap_start (spaces : Gap gap) (text : List Nat) : nextIs isSpace (gap ++ text) = true :=
  nextIs_append spaces.1 spaces.2 text

theorem gap_no_digit (spaces : Gap gap) (text : List Nat) : nextIs isDigit (gap ++ text) = false :=
  nextIs_mono (fun _ space => not_digit_of_space space) (gap_start spaces text)

theorem clause_start (clause : ClauseText lits word) (text : List Nat) :
    nextIs isDigit (word ++ text) = false := by
  cases clause with
  | zero spaces int => rw [List.append_assoc]; exact gap_no_digit spaces _
  | lit spaces nonzero int rest => rw [List.append_assoc]; exact gap_no_digit spaces _

theorem writtenClause_text (clause : ClauseText lits word) (stops : nextIs isDigit text = false) :
    writtenClause (word ++ text) = (lits, .ok text) := by
  induction clause with
  | @zero gap word spaces int =>
    rw [List.append_assoc, writtenClause_ok (writtenInt_text spaces.2 int stops), if_pos rfl]
  | @lit gap word rest l lits spaces nonzero int clause ih =>
    rw [List.append_assoc, List.append_assoc,
      writtenClause_ok (writtenInt_text spaces.2 int (clause_start clause text)), if_neg nonzero, ih]

end Tokens

section Lines
variable {gap word text words : List Nat} {e : Entry} {entries : List Entry}

theorem readLine_end (blank : Blank gap) :
    readLine writtenWeight gap = .stop .endOfFile := by
  have skipped : skipWhitespace (gap ++ []) = [] := skipWhitespace_blank blank rfl
  rw [List.append_nil] at skipped
  unfold readLine
  dsimp only
  rw [skipped]
  rfl

theorem readLine_comment (blank : Blank gap) :
    readLine writtenWeight (gap ++ 'c'.toNat :: text) = .comment (skipLine ('c'.toNat :: text)) := by
  have skipped : skipWhitespace (gap ++ 'c'.toNat :: text) = 'c'.toNat :: text :=
    skipWhitespace_blank blank rfl
  unfold readLine
  dsimp only
  rw [skipped]
  rfl

theorem readLine_header (blank : Blank gap) :
    readLine writtenWeight (gap ++ 'p'.toNat :: text) = readHeader writtenWeight text := by
  have skipped : skipWhitespace (gap ++ 'p'.toNat :: text) = 'p'.toNat :: text :=
    skipWhitespace_blank blank rfl
  unfold readLine
  dsimp only
  rw [skipped]
  rfl

theorem readLine_weighted {c : Nat} {mark : Option Nat} {rest : List Nat} (blank : Blank gap)
    (word : isSpace c = false) (other : c ≠ 'c'.toNat ∧ c ≠ 'p'.toNat)
    (read : writtenWeight (c :: text) = .ok (mark, rest)) :
    readLine writtenWeight (gap ++ c :: text) = .weighted mark rest := by
  have skipped : skipWhitespace (gap ++ c :: text) = c :: text := skipWhitespace_blank blank word
  have next : peek (c :: text) = some c := rfl
  unfold readLine
  dsimp only
  rw [skipped, next]
  dsimp only
  rw [if_neg other.1, if_neg other.2, read]

theorem skipLine_text (one_line : '\n'.toNat ∉ words) :
    skipLine (words ++ '\n'.toNat :: text) = text := by
  have taken : ∀ c ∈ words, (c != '\n'.toNat) = true := by
    intro c mem
    rw [bne_iff_ne]
    intro same
    exact one_line (same ▸ mem)
  unfold skipLine
  dsimp only
  rw [scan_word taken (by rfl)]
  rfl

theorem skipLine_end (one_line : '\n'.toNat ∉ words) : skipLine words = [] := by
  have taken : ∀ c ∈ words, (c != '\n'.toNat) = true := by
    intro c mem
    rw [bne_iff_ne]
    intro same
    exact one_line (same ▸ mem)
  have scanned : scan _ (fun (a : Unit) _ => a) () (words ++ []) = _ := scan_word taken rfl
  rw [List.append_nil] at scanned
  unfold skipLine
  dsimp only
  rw [scanned]
  rfl

/-- After an entry stands nothing that could belong to its last number. -/
theorem entry_stops (apart : text = [] ∨ nextIs isSpace text = true) : nextIs isDigit text = false := by
  rcases apart with rfl | space
  · rfl
  · exact nextIs_mono (fun _ space => not_digit_of_space space) space

theorem readHeader_text {gap₁ gap₂ gap₃ vars clauses weight : List Nat} {v c : Int} {top : Nat}
    (blank : Blank gap) (spaces₁ : Gap gap₁) (int₁ : IntText v vars) (spaces₂ : Gap gap₂)
    (int₂ : IntText c clauses) (spaces₃ : Gap gap₃) (weighs : WeightText top weight)
    (stops : nextIs isDigit text = false) :
    readHeader writtenWeight (' '.toNat :: (gap ++ (['w', 'c', 'n', 'f'].map Char.toNat ++
      (gap₁ ++ (vars ++ (gap₂ ++ (clauses ++ (gap₃ ++ (weight ++ text))))))))) = .header (some top) text := by
  have skipped : ∀ rest, skipWhitespace (' '.toNat :: (gap ++ ('w'.toNat :: rest))) = 'w'.toNat :: rest := by
    intro rest
    have spaces : Blank (' '.toNat :: gap) := by
      intro x mem
      rcases List.mem_cons.mp mem with rfl | mem
      · rfl
      · exact blank x mem
    exact skipWhitespace_blank spaces rfl
  have matched : ∀ rest, eagerMatch ['w', 'c', 'n', 'f']
      ('w'.toNat :: 'c'.toNat :: 'n'.toNat :: 'f'.toNat :: rest) = (true, rest) := fun _ => rfl
  have first := writtenInt_text spaces₁.2 int₁ (gap_no_digit spaces₂ (clauses ++ (gap₃ ++ (weight ++ text))))
  have second := writtenInt_text spaces₂.2 int₂ (gap_no_digit spaces₃ (weight ++ text))
  unfold readHeader
  rw [if_pos (by rfl)]
  simp only [List.map_cons, List.map_nil, List.cons_append, List.nil_append, skipped, matched,
    parseInt_written, first, second, Except.map, writtenWeight_text spaces₃.2 weighs stops]

theorem document_entry (blank : Blank gap) (written : EntryText e word)
    (stops : nextIs isDigit text = false) :
    document (gap ++ (word ++ text)) = (document text).push e := by
  have clause_line : ∀ {mark rest lits clause}, ClauseText lits clause →
      readLine writtenWeight rest = .weighted mark (clause ++ text) →
      document rest = (document text).push (.clause mark lits) := by
    intro mark rest lits clause written line
    have read := writtenClause_text written stops
    rw [document_eq, line, documentLine, read]
  cases written with
  | top blank' spaces₁ int₁ spaces₂ int₂ spaces₃ weighs =>
    have header := readHeader_text blank' spaces₁ int₁ spaces₂ int₂ spaces₃ weighs stops
    rw [document_eq, List.cons_append, readLine_header blank]
    simp only [List.cons_append, List.append_assoc]
    rw [header]
    rfl
  | @hard rest lits clause space =>
    apply clause_line clause
    have next : nextIs (· == ' '.toNat) (rest ++ text) = true := by
      cases rest with
      | nil => simp [nextIs, InputStream.peek] at space
      | cons c rest => exact space
    rw [List.cons_append]
    apply readLine_weighted blank rfl ⟨by decide, by decide⟩
    have skipped : skipWhitespace ('h'.toNat :: (rest ++ text)) = 'h'.toNat :: (rest ++ text) :=
      @skipWhitespace_blank [] _ (by simp [Blank]) rfl
    have mark : nextIs (· == 'h'.toNat) ('h'.toNat :: (rest ++ text)) = true := rfl
    have behind : advance ('h'.toNat :: (rest ++ text)) = rest ++ text := rfl
    unfold writtenWeight
    dsimp only
    rw [skipped, if_pos mark, behind, if_pos next]
  | @soft weight rest w lits weighs clause =>
    apply clause_line clause
    obtain ⟨c, more, shape, other⟩ := weight_start weighs (rest ++ text)
    have word := weight_no_space weighs (rest ++ text)
    have read := @writtenWeight_text [] _ _ _ (by simp [Blank]) weighs (clause_start clause text)
    rw [List.nil_append, shape] at read
    rw [shape] at word
    rw [List.append_assoc, shape]
    exact readLine_weighted blank word other read

theorem document_written (written : FileText entries text) :
    document text = ⟨entries, [], .endOfFile⟩ := by
  induction written with
  | blank blank =>
    rw [document_eq, readLine_end blank]
    rfl
  | @remark gap words blank one_line =>
    have line : '\n'.toNat ∉ 'c'.toNat :: words := by
      rw [List.mem_cons]
      rintro (same | mem)
      · exact absurd same (by decide)
      · exact one_line mem
    have ended := @readLine_end [] (by simp [Blank])
    rw [document_eq, readLine_comment blank, skipLine_end line, documentLine, document_eq, ended]
    rfl
  | @comment gap words text entries blank one_line rest ih =>
    have line : '\n'.toNat ∉ 'c'.toNat :: words := by
      rw [List.mem_cons]
      rintro (same | mem)
      · exact absurd same (by decide)
      · exact one_line mem
    rw [document_eq, readLine_comment blank, ← List.cons_append, skipLine_text line]
    exact ih
  | entry blank entry apart rest ih =>
    rw [document_entry blank entry (entry_stops apart), ih]
    rfl

end Lines
end EvalMaxSat
