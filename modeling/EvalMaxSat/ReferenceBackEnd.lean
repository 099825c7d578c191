import EvalMaxSat.SatSolver

/-!
A back end that can be run: complete calls try every assignment, limited calls give up,
and propagation is unit propagation. It shows that `Env.Sound` can be met, and concrete
runs of the program are runs on it.
-/
namespace EvalMaxSat
open Literals OrderedContainers

def maxVar (f : Cnf) (as : List Int) : Nat :=
  (f.flatten ++ as).foldl (fun n l => max n l.natAbs) 0

def digits (n x : Nat) : List Bool := (List.range (n + 1)).map x.testBit

def search (f : Cnf) (as : List Int) : Option (List Bool) :=
  ((List.range (2 ^ (maxVar f as + 1))).map (digits (maxVar f as))).find? fun model =>
    decide (Models (assignment model) f) && as.all (litTrue (assignment model))

def refutedBy (trail : List Int) (l : Int) : Bool := l ≠ 0 ∧ -l ∈ trail

def unitLiteral (trail : List Int) (c : Clause) : Option Int :=
  match c.filter (fun l => !refutedBy trail l) with
  | [l] => if l ∈ trail then none else some l
  | _ => none

/-- Unit propagation; `none` when a clause has no literal left. -/
def unitPropagate (f : Cnf) : Nat → List Int → Option (List Int)
  | 0, trail => some trail
  | fuel + 1, trail =>
    if f.any (fun c => c.all (refutedBy trail)) then none
    else
      match f.findSome? (unitLiteral trail) with
      | none => some trail
      | some l => unitPropagate f fuel (trail ++ [l])

def newlyImplied (f : Cnf) (as trail : List Int) : List Int :=
  (trail.filter fun l => l ≠ 0 ∧ l ∉ as ∧ -l ∉ as ∧ [l] ∉ f ∧ [-l] ∉ f).dedup

def referenceBackEnd : Env Unit where
  answer := fun _ f as lim =>
    match lim with
    | .unlimited =>
      match search f as with
      | some model => (.sat model, ())
      | none => (.unsat as, ())
    | _ => (.unknown, ())
  propagate := fun _ f as =>
    ((unitPropagate f (f.flatten.length + 1) as).map (newlyImplied f as), ())
  clock := fun _ => (false, ())
  shuffle := fun _ xs => (xs, ())
  maxclique := fun _ _ _ => ([], ())
  quotient := fun a b => (a : ℚ) / b
  belowHalf := fun a b => decide (2 * a < b)
  beginDecrement := fun _ => false

section Search
variable {f : Cnf} {as : List Int}

theorem foldl_max_bound (ls : List Int) (n : Nat) :
    n ≤ ls.foldl (fun n l => max n l.natAbs) n ∧
      ∀ l ∈ ls, l.natAbs ≤ ls.foldl (fun n l => max n l.natAbs) n := by
  induction ls generalizing n with
  | nil => simp
  | cons k ks ih =>
    obtain ⟨least, each⟩ := ih (max n k.natAbs)
    rw [List.foldl_cons]
    refine ⟨(Nat.le_max_left _ _).trans least, ?_⟩
    intro l mem
    rcases List.mem_cons.mp mem with same | mem
    · rw [same]; exact (Nat.le_max_right _ _).trans least
    · exact each l mem

theorem natAbs_le_maxVar {l : Int} (mem : l ∈ f.flatten ++ as) : l.natAbs ≤ maxVar f as :=
  (foldl_max_bound _ 0).2 l mem

theorem assignment_digits {n x v : Nat} (bound : v ≤ n) : assignment (digits n x) v = x.testBit v := by
  rw [assignment, digits, List.getD_eq_getElem?_getD, List.getElem?_map,
    List.getElem?_range (by omega)]
  rfl

theorem digits_complete (n : Nat) (m : Assignment) :
    ∃ x < 2 ^ (n + 1), AgreeUpTo n m (assignment (digits n x)) := by
  refine ⟨Nat.ofBits (fun i : Fin (n + 1) => m i), Nat.ofBits_lt_two_pow _, ?_⟩
  intro v bound
  rw [assignment_digits bound, Nat.testBit_ofBits_lt _ _ (by omega)]

theorem search_some {model : List Bool} (found : search f as = some model) :
    Models (assignment model) f ∧ AllTrue (assignment model) as := by
  have good := List.find?_some found
  simpa [AllTrue] using good

theorem search_none (none : search f as = none) : Inconsistent f as := by
  intro m models all
  obtain ⟨x, bound, agree⟩ := digits_complete (maxVar f as) m
  have same : ∀ l ∈ f.flatten ++ as,
      litTrue (assignment (digits (maxVar f as) x)) l = litTrue m l :=
    fun l mem => litTrue_agree agree (natAbs_le_maxVar mem)
  rw [search, List.find?_eq_none] at none
  have bad := none (digits (maxVar f as) x)
    (List.mem_map.mpr ⟨x, List.mem_range.mpr bound, rfl⟩)
  apply bad
  simp only [Bool.and_eq_true, decide_eq_true_eq, List.all_eq_true]
  constructor
  · intro c inF
    obtain ⟨l, inC, true_l⟩ := models c inF
    exact ⟨l, inC, by
      rw [same l (List.mem_append_left _ (List.mem_flatten.mpr ⟨c, inF, inC⟩))]; exact true_l⟩
  · intro l mem
    rw [same l (List.mem_append_right _ mem)]
    exact all l mem

end Search

section Propagation
variable {f : Cnf} {trail : List Int} {m : Assignment}

theorem refutedBy_false {l : Int} (all : AllTrue m trail) (refuted : refutedBy trail l = true) :
    litTrue m l = false := by
  simp only [refutedBy, decide_eq_true_eq] at refuted
  have opposite := all (-l) refuted.2
  rw [litTrue_neg refuted.1] at opposite
  simpa using opposite

theorem unitLiteral_true {l : Int} (models : Models m f) (all : AllTrue m trail)
    (found : f.findSome? (unitLiteral trail) = some l) : litTrue m l = true := by
  obtain ⟨c, inF, unit⟩ := List.exists_of_findSome?_eq_some found
  obtain ⟨k, inC, true_k⟩ := models c inF
  have left : k ∈ c.filter (fun l => !refutedBy trail l) := by
    rw [List.mem_filter]
    refine ⟨inC, ?_⟩
    cases refuted : refutedBy trail k with
    | false => rfl
    | true =>
      rw [refutedBy_false all refuted] at true_k
      simp at true_k
  simp only [unitLiteral] at unit
  split at unit
  · rename_i j only
    rw [only, List.mem_singleton] at left
    split at unit
    · simp at unit
    · rw [← Option.some.inj unit, ← left]; exact true_k
  · simp at unit

theorem unitPropagate_sound {p : List Int} (fuel : Nat) (models : Models m f) (all : AllTrue m p) :
    ∃ out, unitPropagate f fuel p = some out ∧ AllTrue m out := by
  induction fuel generalizing p with
  | zero => exact ⟨p, rfl, all⟩
  | succ fuel ih =>
    rw [unitPropagate, if_neg]
    · cases found : f.findSome? (unitLiteral p) with
      | none => exact ⟨p, rfl, all⟩
      | some l =>
        apply ih
        intro k mem
        rcases List.mem_append.mp mem with old | new
        · exact all k old
        · rw [List.mem_singleton.mp new]
          exact unitLiteral_true models all found
    · intro conflict
      obtain ⟨c, inF, none⟩ := List.any_eq_true.mp conflict
      obtain ⟨k, inC, true_k⟩ := models c inF
      rw [refutedBy_false all (List.all_eq_true.mp none k inC)] at true_k
      simp at true_k

end Propagation

theorem reference_sound : referenceBackEnd.Sound where
  sat := by
    intro k f as lim model answer
    cases lim with
    | unlimited =>
      cases found : search f as with
      | none => simp [referenceBackEnd, found] at answer
      | some model' =>
        simp only [referenceBackEnd, found, Answer.sat.injEq] at answer
        rw [← answer]; exact search_some found
    | conflicts budget => simp [referenceBackEnd] at answer
    | time => simp [referenceBackEnd] at answer
  unsat := by
    intro k f as lim failed answer
    cases lim with
    | unlimited =>
      cases found : search f as with
      | none =>
        simp only [referenceBackEnd, found, Answer.unsat.injEq] at answer
        rw [← answer, List.filter_eq_self.mpr (by simp)]
        exact search_none found
      | some model => simp [referenceBackEnd, found] at answer
    | conflicts budget => simp [referenceBackEnd] at answer
    | time => simp [referenceBackEnd] at answer
  complete := by
    intro k f as
    simp only [referenceBackEnd]
    split <;> simp
  implied := by
    intro k f as prop answer l mem m models all
    simp only [referenceBackEnd, Option.map_eq_some_iff] at answer
    obtain ⟨trail, done, rfl⟩ := answer
    obtain ⟨out, done', true_out⟩ := unitPropagate_sound (f.flatten.length + 1) models
      (p := as) (fun l mem => all l (by simp [mem]))
    rw [done] at done'
    obtain rfl := Option.some.inj done'
    simp only [newlyImplied, List.mem_dedup, List.mem_filter, decide_eq_true_eq] at mem
    have opposite := all (-l) (by simp)
    rw [litTrue_neg mem.2.1, true_out l mem.1] at opposite
    simp at opposite
  newly := by
    intro k f as prop answer
    simp only [referenceBackEnd, Option.map_eq_some_iff] at answer
    obtain ⟨trail, _, rfl⟩ := answer
    refine ⟨List.nodup_dedup _, ?_⟩
    intro l mem
    simp only [newlyImplied, List.mem_dedup, List.mem_filter, decide_eq_true_eq] at mem
    exact mem.2
  failing := by
    intro k f as answer m models all
    simp only [referenceBackEnd, Option.map_eq_none_iff] at answer
    obtain ⟨out, done, _⟩ := unitPropagate_sound (f.flatten.length + 1) models all
    rw [answer] at done
    simp at done
  permutes := fun _ xs => List.Perm.refl xs
  clique := by simp [referenceBackEnd]

/-- A back end whose limited calls find the answer. -/
def patientBackEnd : Env Unit :=
  { referenceBackEnd with answer := fun k f as _ => referenceBackEnd.answer k f as .unlimited }

theorem patient_sound : patientBackEnd.Sound where
  sat := fun k f as _ => reference_sound.sat k f as .unlimited
  unsat := fun k f as _ => reference_sound.unsat k f as .unlimited
  complete := reference_sound.complete
  implied := reference_sound.implied
  newly := reference_sound.newly
  failing := reference_sound.failing
  permutes := reference_sound.permutes
  clique := reference_sound.clique

end EvalMaxSat
