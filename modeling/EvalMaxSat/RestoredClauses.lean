import EvalMaxSat.ExtensionStack
import EvalMaxSat.ModelReconstruction
import EvalMaxSat.Steps

/-!
Reading the extension stack. Backwards, a solution is repaired entry by entry; forwards, the clauses
that a tainted literal could hurt are put back, and the repairs of the others keep them.
-/
namespace EvalMaxSat
open Literals ModelReconstruction

namespace Cadical
open External

/-- The assignment with all the literals made true, the first one last. -/
def setAll (ls : List Int) (m : Assignment) : Assignment :=
  ls.foldr (fun l m => assign m l.natAbs (decide (0 < l))) m

/-- A clause that was taken away, with its witness literals. -/
abbrev Weakened := List Int × Clause

def stackText (es : List Weakened) : List Int := es.flatMap fun e => 0 :: (e.1 ++ 0 :: e.2)

def removal (e : Weakened) : Removal Assignment := ⟨fun m => Holds m e.2, setAll e.1⟩

section Literals
variable {m : Assignment} {l k : Int} {ls : List Int} {map : List Bool}

theorem assign_true (nonzero : l ≠ 0) (true_l : litTrue m l = true) (apart : k ≠ -l) :
    litTrue (assign m k.natAbs (decide (0 < k))) l = true := by
  unfold litTrue assign at *
  by_cases same : l.natAbs = k.natAbs
  · have equal : k = l := by omega
    subst equal
    rw [if_pos rfl]
    by_cases positive : 0 < k
    · simp [positive]
    · simp [positive]
  · rw [if_neg same]
    exact true_l

theorem setAll_keeps (nonzero : l ≠ 0) (apart : -l ∉ ls) (true_l : litTrue m l = true) :
    litTrue (setAll ls m) l = true := by
  induction ls with
  | nil => exact true_l
  | cons k ls ih =>
    have behind := ih fun mem => apart (List.mem_cons_of_mem k mem)
    exact assign_true nonzero behind fun same => apart (by rw [same]; exact List.mem_cons_self)

theorem holds_setAll {c : Clause} (nonzero : ∀ l ∈ c, l ≠ 0) (apart : ∀ l ∈ c, -l ∉ ls)
    (holds : Holds m c) : Holds (setAll ls m) c := by
  obtain ⟨l, mem, true_l⟩ := holds
  exact ⟨l, mem, setAll_keeps (nonzero l mem) (apart l mem) true_l⟩

theorem elit2ulit_inj (first : l ≠ 0) (second : k ≠ 0) (same : elit2ulit l = elit2ulit k) : l = k := by
  unfold elit2ulit at same
  split at same <;> split at same <;> omega

theorem assignment_setVal (vals : List Bool) (idx : Nat) (b : Bool) :
    assignment (setVal vals idx b) = assign (assignment vals) idx b := by
  funext v
  unfold setVal assign
  have padded := congrFun (assignment_pad vals (idx + 1 - vals.length)) v
  unfold assignment at *
  simp only [List.getD_eq_getElem?_getD] at *
  by_cases same : v = idx
  · subst same
    rw [if_pos rfl, List.getElem?_set_self (by
      rw [List.length_append, List.length_replicate]
      omega)]
    rfl
  · rw [if_neg same, List.getElem?_set_ne fun eq => same eq.symm]
    exact padded

theorem marked_mark (nonzero : k ≠ 0) (other : l ≠ 0) :
    marked (mark map k) l = true ↔ l = k ∨ marked map l = true := by
  have values := congrFun (assignment_setVal map (elit2ulit k) true) (elit2ulit l)
  have read : marked (mark map k) l =
      assign (assignment map) (elit2ulit k) true (elit2ulit l) := values
  rw [read]
  unfold assign
  by_cases same : elit2ulit l = elit2ulit k
  · simp [elit2ulit_inj other nonzero same]
  · have apart : l ≠ k := fun eq => same (by rw [eq])
    rw [if_neg same]
    simp only [apart, false_or]
    rfl

theorem marked_fold {ks : List Int} (nonzero : ∀ k ∈ ks, k ≠ 0) (other : l ≠ 0) :
    marked (ks.foldl mark map) l = true ↔ l ∈ ks ∨ marked map l = true := by
  induction ks generalizing map with
  | nil => simp
  | cons k ks ih =>
    rw [List.foldl_cons, ih fun j mem => nonzero j (List.mem_cons_of_mem k mem),
      marked_mark (nonzero k List.mem_cons_self) other, List.mem_cons]
    tauto

theorem unmarked : marked [] l = false := rfl

end Literals

section Stack
variable {es : List Weakened} {ws c rest : List Int} {e : Weakened}

theorem untilZero_append (nonzero : ∀ l ∈ ws, l ≠ 0) :
    untilZero (ws ++ 0 :: rest) = some (ws, rest) := by
  induction ws with
  | nil => rfl
  | cons l ws ih =>
    rw [List.cons_append, untilZero, if_neg (nonzero l List.mem_cons_self),
      ih fun j mem => nonzero j (List.mem_cons_of_mem l mem)]
    rfl

theorem untilZero_more {r : List Int × List Int} (read : untilZero ws = some r) : ws ≠ [] := by
  intro none
  rw [none] at read
  cases read

theorem stackText_append (es : List Weakened) (e : Weakened) :
    stackText (es ++ [e]) = stackText es ++ 0 :: (e.1 ++ 0 :: e.2) := by
  unfold stackText
  rw [List.flatMap_append, List.flatMap_singleton]

/-- Read backwards, the stack begins with its last clause. -/
theorem stackText_reverse (es : List Weakened) (e : Weakened) :
    (stackText (es ++ [e])).reverse =
      e.2.reverse ++ 0 :: (e.1.reverse ++ 0 :: (stackText es).reverse) := by
  rw [stackText_append]
  simp

theorem backward_reads (es : List Weakened) (nonzero : ∀ l ∈ ws ++ c, l ≠ 0) :
    untilZero (c.reverse ++ 0 :: (ws.reverse ++ 0 :: (stackText es).reverse)) =
        some (c.reverse, ws.reverse ++ 0 :: (stackText es).reverse) ∧
      untilZero (ws.reverse ++ 0 :: (stackText es).reverse) =
        some (ws.reverse, (stackText es).reverse) := by
  obtain ⟨first, second⟩ := List.forall_mem_append.mp nonzero
  constructor
  · exact untilZero_append fun l mem => second l (List.mem_reverse.mp mem)
  · exact untilZero_append fun l mem => first l (List.mem_reverse.mp mem)

theorem stackText_take (nonzero : ∀ l ∈ c, l ≠ 0) (es : List Weakened) :
    (c ++ stackText es).takeWhile (· ≠ 0) = c ∧
      (c ++ stackText es).dropWhile (· ≠ 0) = stackText es := by
  induction c with
  | nil =>
    cases es with
    | nil => exact ⟨rfl, rfl⟩
    | cons e es => exact ⟨rfl, rfl⟩
  | cons l c ih =>
    obtain ⟨taken, dropped⟩ := ih fun j mem => nonzero j (List.mem_cons_of_mem l mem)
    have here := nonzero l List.mem_cons_self
    rw [List.cons_append, List.takeWhile_cons_of_pos (by simpa using here),
      List.dropWhile_cons_of_pos (by simpa using here), taken, dropped]
    exact ⟨rfl, rfl⟩

end Stack

section Extending
variable {max_var : Nat} {vals : List Bool} {l : Int} {es : List Weakened}

theorem ival_signs (nonzero : l ≠ 0) (bound : l.natAbs ≤ max_var) :
    (0 < ival max_var vals l ↔ litTrue (assignment vals) l = true) ∧
      (ival max_var vals l < 0 ↔ litTrue (assignment vals) l = false) := by
  have inside : ¬ max_var < l.natAbs := by omega
  have flips : ∀ res : Int, (if l < 0 then -res else res) = if 0 < l then res else -res := by
    intro res
    by_cases positive : 0 < l
    · rw [if_pos positive, if_neg (by omega)]
    · rw [if_neg positive, if_pos (by omega)]
  unfold ival litTrue assignment
  rw [if_neg inside, flips]
  cases value : vals.getD l.natAbs false with
  | true =>
    have known : ¬ vals.length ≤ l.natAbs := by
      intro outside
      rw [List.getD_eq_default _ _ outside] at value
      cases value
    simp only [if_neg known]
    by_cases positive : 0 < l
    · simp [positive]
      omega
    · simp [positive]
      omega
  | false =>
    by_cases known : vals.length ≤ l.natAbs
    · simp only [if_pos known]
      by_cases positive : 0 < l <;> simp [positive]
    · simp only [if_neg known]
      by_cases positive : 0 < l
      · simp [positive]
        omega
      · simp [positive]
        omega

theorem assignment_flip (nonzero : l ≠ 0) (bound : l.natAbs ≤ max_var) :
    assignment (External.flip max_var vals l) = assign (assignment vals) l.natAbs (decide (0 < l)) := by
  have sign : ival max_var vals l < 0 ↔ litTrue (assignment vals) l = false :=
    (ival_signs nonzero bound).2
  unfold External.flip
  by_cases negative : ival max_var vals l < 0
  · have false_l := sign.mp negative
    rw [if_pos negative, assignment_setVal]
    congr 1
    unfold litTrue assignment at false_l
    by_cases positive : 0 < l
    · simpa [positive] using false_l
    · simpa [positive] using false_l
  · have true_l : litTrue (assignment vals) l = true := by
      rw [← Bool.not_eq_false]
      exact fun false_l => negative (sign.mpr false_l)
    rw [if_neg negative]
    funext v
    unfold assign
    by_cases same : v = l.natAbs
    · subst same
      rw [if_pos rfl]
      unfold litTrue at true_l
      by_cases positive : 0 < l
      · simpa [positive] using true_l
      · simpa [positive] using true_l
    · rw [if_neg same]

theorem assignment_flips {ws : List Int} (within : Within max_var ws) :
    assignment (ws.reverse.foldl (External.flip max_var) vals) = setAll ws (assignment vals) := by
  induction ws with
  | nil => rfl
  | cons l ws ih =>
    obtain ⟨nonzero, bound⟩ := within l List.mem_cons_self
    rw [List.reverse_cons, List.foldl_append, List.foldl_cons, List.foldl_nil,
      assignment_flip nonzero bound, ih fun k mem => within k (List.mem_cons_of_mem l mem)]
    rfl

theorem extendLoop_done : extendLoop max_var [] vals = some vals := by
  rw [extendLoop, if_pos rfl]

theorem extendLoop_step {i clause i₁ witness i₂ : List Int}
    (clauseRead : untilZero i = some (clause, i₁))
    (witnessRead : untilZero i₁ = some (witness, i₂)) :
    extendLoop max_var i vals =
      if clause.any fun lit => 0 < ival max_var vals lit then extendLoop max_var i₂ vals
      else extendLoop max_var i₂ (witness.foldl (External.flip max_var) vals) := by
  rw [extendLoop, if_neg (untilZero_more clauseRead)]
  split
  · simp_all
  · split <;> simp_all

theorem satisfied_iff {c : List Int} (within : Within max_var c) :
    (c.reverse.any fun lit => 0 < ival max_var vals lit) = true ↔ Holds (assignment vals) c := by
  rw [List.any_reverse, List.any_eq_true]
  constructor
  · rintro ⟨l, mem, positive⟩
    exact ⟨l, mem, (ival_signs (within l mem).1 (within l mem).2).1.mp (of_decide_eq_true positive)⟩
  · rintro ⟨l, mem, true_l⟩
    exact ⟨l, mem, decide_eq_true ((ival_signs (within l mem).1 (within l mem).2).1.mpr true_l)⟩

/-- Going backwards over the text of the stack repairs the assignment entry by entry. -/
theorem extendLoop_rebuilds (vals : List Bool) (within : ∀ e ∈ es, Within max_var (e.1 ++ e.2)) :
    ∃ vals', extendLoop max_var (stackText es).reverse vals = some vals' ∧
      assignment vals' = rebuild (es.map removal) (assignment vals) := by
  induction es using List.reverseRecOn generalizing vals with
  | nil => exact ⟨vals, extendLoop_done, rfl⟩
  | append_singleton es e ih =>
    obtain ⟨older, last⟩ := List.forall_mem_append.mp within
    have literals := last e (List.mem_singleton.mpr rfl)
    obtain ⟨ws, c⟩ := e
    obtain ⟨wsWithin, cWithin⟩ := List.forall_mem_append.mp literals
    obtain ⟨clauseRead, witnessRead⟩ := backward_reads es fun l mem => (literals l mem).1
    rw [stackText_reverse, extendLoop_step clauseRead witnessRead, List.map_append,
      List.map_singleton, rebuild_append]
    simp only [satisfied_iff cWithin]
    by_cases holds : Holds (assignment vals) c
    · have kept : rebuild [removal (ws, c)] (assignment vals) = assignment vals := rebuild_held holds
      rw [if_pos holds, kept]
      exact ih _ older
    · have repaired : rebuild [removal (ws, c)] (assignment vals) = setAll ws (assignment vals) :=
        rebuild_broken holds
      rw [if_neg holds, repaired, ← assignment_flips wsWithin]
      exact ih _ older

end Extending

section Internalizing
variable {l : Int} {ls : List Int} {e e' e'' : External}

/-- What internalizing literals does: a literal whose negation is a witness literal is tainted. -/
structure Internalized (ls : List Int) (e e' : External) : Prop where
  clauses : e'.clauses = e.clauses
  witness : e'.witness = e.witness
  extension : e'.extension = e.extension
  assumptions : e'.assumptions = e.assumptions
  room : e.max_var ≤ e'.max_var
  covers : ∀ l ∈ ls, l.natAbs ≤ e'.max_var
  tainted : ∀ k, k ≠ 0 → marked e.tainted k = true → marked e'.tainted k = true
  taints : ∀ l ∈ ls, marked e.witness (-l) = true → marked e'.tainted l = true

theorem init_room (n : Nat) (e : External) :
    init n e = { e with max_var := max n e.max_var } := by
  unfold init
  split
  · next inside => rw [max_eq_right inside]
  · next outside => rw [max_eq_left (by omega)]

theorem internalized_nil (e : External) : Internalized [] e e :=
  ⟨rfl, rfl, rfl, rfl, le_rfl, by simp, fun _ _ known => known, by simp⟩

theorem internalized_one (nonzero : l ≠ 0) (e : External) : Internalized [l] e (e.internalize l) := by
  unfold internalize
  rw [if_neg nonzero, init_room]
  dsimp only
  by_cases taints : (!marked e.tainted l && marked e.witness (-l)) = true
  · rw [if_pos taints]
    refine ⟨rfl, rfl, rfl, rfl, le_max_right _ _, ?_, ?_, ?_⟩
    · simp
    · intro k apart known
      exact (marked_mark nonzero apart).mpr (Or.inr known)
    · intro k mem _
      rw [List.mem_singleton.mp mem]
      exact (marked_mark nonzero nonzero).mpr (Or.inl rfl)
  · rw [if_neg taints]
    refine ⟨rfl, rfl, rfl, rfl, le_max_right _ _, ?_, fun _ _ known => known, ?_⟩
    · simp
    · intro k mem witnessed
      rw [List.mem_singleton.mp mem] at witnessed ⊢
      simp only [witnessed, Bool.and_true, Bool.not_eq_true, Bool.not_eq_false'] at taints
      exact taints

theorem internalized_cons (head : l ≠ 0) (first : Internalized [l] e e')
    (rest : Internalized ls e' e'') : Internalized (l :: ls) e e'' where
  clauses := rest.clauses.trans first.clauses
  witness := rest.witness.trans first.witness
  extension := rest.extension.trans first.extension
  assumptions := rest.assumptions.trans first.assumptions
  room := first.room.trans rest.room
  covers := by
    intro k mem
    rcases List.mem_cons.mp mem with same | later
    · subst same
      exact (first.covers k List.mem_cons_self).trans rest.room
    · exact rest.covers k later
  tainted := fun k apart known => rest.tainted k apart (first.tainted k apart known)
  taints := by
    intro k mem witnessed
    rcases List.mem_cons.mp mem with same | later
    · subst same
      exact rest.tainted k head (first.taints k List.mem_cons_self witnessed)
    · exact rest.taints k later (by rw [first.witness]; exact witnessed)

theorem internalized_fold (nonzero : ∀ k ∈ ls, k ≠ 0) (e : External) :
    Internalized ls e (ls.foldl (fun e elit => e.internalize elit) e) := by
  induction ls generalizing e with
  | nil => exact internalized_nil e
  | cons l ls ih =>
    have head := nonzero l List.mem_cons_self
    have behind := fun k mem => nonzero k (List.mem_cons_of_mem l mem)
    exact internalized_cons head (internalized_one head e) (ih behind _)

end Internalizing

section Restoring
variable {opts : RestoreOptions} {fixed : Cnf → Int → Bool} {base before : Assignment → Prop}
  {d : Weakened} {es : List Weakened} {c : Clause} {q : List Int} {e : External} {m : Assignment}

def FixedHolds (fixed : Cnf → Int → Bool) : Prop :=
  ∀ f l, fixed f l = true → ∀ m, Models m f → litTrue m l = true

def Untainted (e : External) (d : Weakened) : Prop := ∀ l ∈ d.1, marked e.tainted (-l) = false

/-- What the loop over the stack relies on: the marks are those of the entries that are still to be
read, and the repairs of the untainted ones keep what was put back so far. -/
structure Restorable (base before : Assignment → Prop) (es : List Weakened) (e : External) :
    Prop where
  literals : ∀ d ∈ es, ∀ l ∈ d.1 ++ d.2, l ≠ 0
  marks : ∀ d ∈ es, ∀ l ∈ d.1, marked e.witness l = true
  split : ∀ m, Models m e.clauses ↔ base m ∧ before m
  quiet : ∀ d ∈ es, Untainted e d → ∀ m, before m → before (setAll d.1 m)

theorem untainted_iff (e : External) (ws : List Int) (c : Clause) :
    (ws.any fun elit => marked e.tainted (-elit)) = false ↔ Untainted e (ws, c) := by
  unfold Untainted
  rw [List.any_eq_false]
  simp

theorem untainted_apart {l : Int} (clean : Untainted e d) (known : marked e.tainted l = true) :
    -l ∉ d.1 := by
  intro witnessed
  have never := clean (-l) witnessed
  rw [Int.neg_neg, known] at never
  cases never

theorem untainted_before {ls : List Int} {e₁ : External} (inside : Internalized ls e e₁)
    (nonzero : ∀ l ∈ d.1 ++ d.2, l ≠ 0) (clean : Untainted e₁ d) : Untainted e d := by
  intro l witnessed
  have apart := nonzero l (List.mem_append_left _ witnessed)
  rw [← Bool.not_eq_true]
  intro known
  have still := inside.tainted (-l) (by omega) known
  rw [clean l witnessed] at still
  cases still

theorem restorable_rest (able : Restorable base before (d :: es) e) : Restorable base before es e where
  literals := fun k mem => able.literals k (List.mem_cons_of_mem d mem)
  marks := fun k mem => able.marks k (List.mem_cons_of_mem d mem)
  split := able.split
  quiet := fun k mem => able.quiet k (List.mem_cons_of_mem d mem)

theorem internalized_restore (nonzero : ∀ l ∈ c, l ≠ 0) (e : External) :
    ∃ e₁, Internalized c e e₁ ∧ e.restore_clause c = { e₁ with clauses := e.clauses ++ [c] } := by
  have inside := internalized_fold nonzero e
  refine ⟨_, inside, ?_⟩
  unfold restore_clause
  rw [← inside.clauses]

/-- A clause that is put back taints what would hurt it, so the repairs that stay keep it. -/
theorem restorable_restored (able : Restorable base before (d :: es) e) :
    Restorable base (fun m => before m ∧ Holds m d.2) es (e.restore_clause d.2) := by
  obtain ⟨ws, c⟩ := d
  have nonzero := able.literals _ List.mem_cons_self
  have nonzeroC := (List.forall_mem_append.mp nonzero).2
  obtain ⟨e₁, inside, same⟩ := internalized_restore nonzeroC e
  rw [same]
  have rest := restorable_rest able
  constructor
  · exact rest.literals
  · intro k mem l witnessed
    have known := rest.marks k mem l witnessed
    rw [← inside.witness] at known
    exact known
  · intro m
    have old := rest.split m
    rw [models_append]
    simp only [Models, List.forall_mem_singleton] at old ⊢
    tauto
  · rintro k mem untainted m ⟨asked, holds⟩
    have clean := untainted_before inside (rest.literals k mem) untainted
    refine ⟨rest.quiet k mem clean m asked, holds_setAll nonzeroC ?_ holds⟩
    intro l literal witnessed
    have known := inside.taints l literal (rest.marks k mem (-l) witnessed)
    exact untainted_apart untainted known witnessed

theorem restoreLoop_step (nonzero : ∀ l ∈ d.1 ++ d.2, l ≠ 0) :
    restoreLoop opts fixed (stackText (d :: es)) q e =
      if (opts.restoreflush && d.2.any (fixed e.clauses) ||
          d.1.any (fun elit => marked e.tainted (-elit)) || opts.restoreall ≠ 0) = true then
        restoreLoop opts fixed (stackText es) q
          (if (opts.restoreflush && d.2.any (fixed e.clauses)) = true then e
          else e.restore_clause d.2)
      else restoreLoop opts fixed (stackText es) (q ++ stackText [d]) e := by
  obtain ⟨ws, c⟩ := d
  obtain ⟨nonzeroW, nonzeroC⟩ := List.forall_mem_append.mp nonzero
  have text : stackText ((ws, c) :: es) = 0 :: (ws ++ 0 :: (c ++ stackText es)) := by
    unfold stackText
    simp
  have single : stackText [(ws, c)] = 0 :: (ws ++ 0 :: c) := by
    unfold stackText
    simp
  have read : untilZero (ws ++ 0 :: (c ++ stackText es)) = some (ws, c ++ stackText es) :=
    untilZero_append nonzeroW
  obtain ⟨taken, dropped⟩ := stackText_take nonzeroC es
  rw [text, single, restoreLoop]
  split
  · simp_all
  · next witness p again =>
    rw [read] at again
    obtain ⟨sameW, sameP⟩ := Prod.mk.inj (Option.some.inj again)
    subst sameW sameP
    rw [taken, dropped]

/-- The outcome of the loop: what was put back, and that the entries that stay were not tainted. -/
structure Restored (base after before : Assignment → Prop) (es es' : List Weakened)
    (e e' : External) : Prop where
  pass : Pass base after before (es.map removal) (es'.map removal)
  split : ∀ m, Models m e'.clauses ↔ base m ∧ after m
  kept : es'.Sublist es
  clean : ∀ d ∈ es', Untainted e d
  assumptions : e'.assumptions = e.assumptions
  room : e.max_var ≤ e'.max_var

variable {after : Assignment → Prop} {es' : List Weakened} {e' : External}

theorem restored_back (nonzero : ∀ l ∈ d.1 ++ d.2, l ≠ 0)
    (rest : Restored base after (fun m => before m ∧ Holds m d.2) es es'
      (e.restore_clause d.2) e') (apart : ∀ d ∈ es, ∀ l ∈ d.1 ++ d.2, l ≠ 0) :
    Restored base after before (d :: es) es' e e' := by
  obtain ⟨e₁, inside, same⟩ := internalized_restore (List.forall_mem_append.mp nonzero).2 e
  rw [same] at rest
  refine ⟨.restore rest.pass, rest.split, .cons d rest.kept, ?_, ?_, ?_⟩
  · intro k mem
    exact untainted_before inside (apart k (rest.kept.subset mem)) (rest.clean k mem)
  · exact rest.assumptions.trans inside.assumptions
  · exact inside.room.trans rest.room

theorem restored_implied (fixes : FixedHolds fixed) (able : Restorable base before (d :: es) e)
    (implied : d.2.any (fixed e.clauses) = true) (rest : Restored base after before es es' e e') :
    Restored base after before (d :: es) es' e e' := by
  obtain ⟨l, mem, known⟩ := List.any_eq_true.mp implied
  refine ⟨.drop ?_ rest.pass, rest.split, .cons d rest.kept, rest.clean, rest.assumptions,
    rest.room⟩
  intro m model asked
  have models := (able.split m).mpr ⟨model, pass_grows rest.pass m asked⟩
  exact ⟨l, mem, fixes e.clauses l known m models⟩

theorem restored_kept (able : Restorable base before (d :: es) e) (clean : Untainted e d)
    (rest : Restored base after before es es' e e') :
    Restored base after before (d :: es) (d :: es') e e' where
  pass := .keep (able.quiet d List.mem_cons_self clean) rest.pass
  split := rest.split
  kept := .cons_cons d rest.kept
  clean := List.forall_mem_cons.mpr ⟨clean, rest.clean⟩
  assumptions := rest.assumptions
  room := rest.room

theorem restoreLoop_restores (opts : RestoreOptions) (fixes : FixedHolds fixed)
    (able : Restorable base before es e) :
    ∃ es' e' after, restoreLoop opts fixed (stackText es) q e = some (q ++ stackText es', e') ∧
      Restored base after before es es' e e' := by
  induction es generalizing q e before with
  | nil =>
    refine ⟨[], e, before, ?_, ⟨.done, able.split, .slnil, by simp, rfl, le_rfl⟩⟩
    have none : stackText [] = [] := rfl
    rw [none, restoreLoop, List.append_nil]
  | cons d es ih =>
    have nonzero := able.literals d List.mem_cons_self
    have rest := restorable_rest able
    rw [restoreLoop_step nonzero]
    by_cases back : (opts.restoreflush && d.2.any (fixed e.clauses) ||
        d.1.any (fun elit => marked e.tainted (-elit)) || opts.restoreall ≠ 0) = true
    · rw [if_pos back]
      by_cases satisfied : (opts.restoreflush && d.2.any (fixed e.clauses)) = true
      · rw [if_pos satisfied]
        obtain ⟨es', e', after, result, restored⟩ := ih rest
        have implied := (Bool.and_eq_true_iff.mp satisfied).2
        exact ⟨es', e', after, result, restored_implied fixes able implied restored⟩
      · rw [if_neg satisfied]
        obtain ⟨es', e', after, result, restored⟩ := ih (restorable_restored able)
        exact ⟨es', e', after, result, restored_back nonzero restored rest.literals⟩
    · rw [if_neg back]
      obtain ⟨es', e', after, result, restored⟩ := ih (q := q ++ stackText [d]) rest
      simp only [Bool.or_eq_true, not_or, Bool.not_eq_true] at back
      have clean := (untainted_iff e d.1 d.2).mp back.1.2
      have text : stackText (d :: es') = stackText [d] ++ stackText es' := by
        unfold stackText
        simp
      refine ⟨d :: es', e', after, ?_, restored_kept able clean restored⟩
      rw [result, text, List.append_assoc]

theorem remark_step {map : List Bool} {p clause p₁ witness p₂ : List Int}
    (clauseRead : untilZero p = some (clause, p₁))
    (witnessRead : untilZero p₁ = some (witness, p₂)) :
    remark p map = remark p₂ (witness.foldl mark map) := by
  rw [remark, if_neg (untilZero_more clauseRead)]
  split
  · simp_all
  · split <;> simp_all

theorem remark_marks (map : List Bool) (nonzero : ∀ d ∈ es, ∀ l ∈ d.1 ++ d.2, l ≠ 0) :
    ∃ map', remark (stackText es).reverse map = some map' ∧
      ∀ l, l ≠ 0 → (marked map' l = true ↔ (∃ d ∈ es, l ∈ d.1) ∨ marked map l = true) := by
  induction es using List.reverseRecOn generalizing map with
  | nil => exact ⟨map, by rw [stackText, List.flatMap_nil, List.reverse_nil, remark, if_pos rfl],
      by simp⟩
  | append_singleton es d ih =>
    obtain ⟨older, last⟩ := List.forall_mem_append.mp nonzero
    have literals := last d (List.mem_singleton.mpr rfl)
    obtain ⟨ws, c⟩ := d
    obtain ⟨wsLiterals, _⟩ := List.forall_mem_append.mp literals
    obtain ⟨clauseRead, witnessRead⟩ := backward_reads es literals
    obtain ⟨map', result, marks⟩ := ih (ws.reverse.foldl mark map) older
    refine ⟨map', ?_, ?_⟩
    · rw [stackText_reverse, remark_step clauseRead witnessRead, result]
    · intro l apart
      have newest : (∃ d ∈ es ++ [(ws, c)], l ∈ d.1) ↔ (∃ d ∈ es, l ∈ d.1) ∨ l ∈ ws := by
        simp only [List.mem_append, List.mem_singleton, or_and_right, exists_or, exists_eq_left]
      rw [marks l apart, marked_fold (fun k mem => wsLiterals k (List.mem_reverse.mp mem)) apart,
        newest, List.mem_reverse, or_assoc]

end Restoring

end Cadical
end EvalMaxSat
