import EvalMaxSat.Cardinality
import EvalMaxSat.Formula
import Mathlib.Data.List.GetD

/-!
What a state still owes. A gauge says which literals are taken as falsified: the
falsified literals of a model give the objective, taking all of them gives the potential.
Both are the same sum over weights, pending cores and cardinalities.
-/
namespace EvalMaxSat
open Literals OrderedContainers

abbrev Gauge := Int → Bool

def falsified (m : Assignment) : Gauge := fun l => !litTrue m l

def everyLit : Gauge := fun _ => true

/-- What a literal of weight `w` owes; a negative weight belongs to its negation. -/
def charge (γ : Gauge) (lit w : Int) : Nat :=
  if 0 < w then if γ lit then w.toNat else 0
  else if γ (-lit) then (-w).toNat else 0

def falseCount (γ : Gauge) (c : Clause) : Nat := c.countP (fun l => γ (-l))

def softSum (γ : Gauge) (v : WeightVector) : Nat :=
  ∑ i ∈ Finset.range v.size, charge γ i (v.weight.getD i 0)

def pendingSum (γ : Gauge) (cores : List (Clause × Nat)) : Nat :=
  (cores.map fun c => c.2 * (falseCount γ c.1 - 1)).sum

def CardObject.charge (γ : Gauge) (o : CardObject) : Nat :=
  o.initialWeight * (falseCount γ o.card.inputs - (o.level + 1))

def cardSum (γ : Gauge) (cards : List CardObject) : Nat := (cards.map (CardObject.charge γ)).sum

def EvalMaxSAT.owed {K : Type} (γ : Gauge) (s : EvalMaxSAT K) : Nat :=
  softSum γ s.poids + pendingSum γ s.cardToAdd + cardSum γ s.cards

def EvalMaxSAT.objective {K : Type} (s : EvalMaxSAT K) (m : Assignment) : Nat :=
  s.cost + s.owed (falsified m)

def EvalMaxSAT.potential {K : Type} (s : EvalMaxSAT K) : Nat := s.owed everyLit

@[simp] theorem charge_zero {γ : Gauge} {lit : Int} : charge γ lit 0 = 0 := by simp [charge]

theorem charge_neg {γ : Gauge} {lit w : Int} : charge γ (-lit) (-w) = charge γ lit w := by
  simp only [charge, neg_neg]
  rcases lt_trichotomy w 0 with neg | zero | pos
  · rw [if_pos (by omega : 0 < -w), if_neg (by omega : ¬ 0 < w)]
  · subst zero; simp
  · rw [if_neg (by omega : ¬ 0 < -w), if_pos pos]

theorem charge_pos {γ : Gauge} {lit w : Int} (nonneg : 0 ≤ w) :
    charge γ lit w = if γ lit then w.toNat else 0 := by
  by_cases pos : 0 < w
  · simp [charge, pos]
  · have : w = 0 := by omega
    subst this; simp

theorem charge_every {l w : Int} : charge everyLit l w = w.natAbs := by
  simp only [charge, everyLit, if_true]
  split <;> omega

theorem falseCount_model {m : Assignment} {c : Clause} (nonzero : ∀ l ∈ c, l ≠ 0) :
    falseCount (falsified m) c = trueCount m c := by
  apply List.countP_congr
  intro l mem
  simp only [falsified, litTrue_neg (nonzero l mem), Bool.not_not]

theorem falseCount_every (c : Clause) : falseCount everyLit c = c.length := by
  simp [falseCount, everyLit]

theorem falseCount_le (γ : Gauge) (c : Clause) : falseCount γ c ≤ c.length :=
  List.countP_le_length

theorem falseCount_perm {γ : Gauge} {c d : Clause} (perm : c.Perm d) :
    falseCount γ c = falseCount γ d := perm.countP_eq _

namespace WeightVector

/-- No entry is near the ends of the machine's range. -/
def Bounded (v : WeightVector) : Prop := ∀ i, (v.weight.getD i 0).natAbs < 2 ^ 63

def signed (lit w : Int) : Int := if lit < 0 then -w else w

theorem signed_signed (lit w : Int) : signed lit (signed lit w) = w := by
  simp only [signed]; split <;> omega

theorem get_eq {v : WeightVector} (bounded : v.Bounded) (lit : Int) :
    v.get lit = signed lit (v.weight.getD lit.natAbs 0) := by
  have := bounded lit.natAbs
  simp only [get, signed]
  split
  · exact i64_of_range (by omega) (by omega)
  · rfl

theorem entry_eq {v : WeightVector} (bounded : v.Bounded) (lit : Int) :
    v.weight.getD lit.natAbs 0 = signed lit (v.get lit) := by
  rw [get_eq bounded, signed_signed]

theorem get_range {v : WeightVector} (bounded : v.Bounded) (lit : Int) :
    (v.get lit).natAbs < 2 ^ 63 := by
  have := bounded lit.natAbs
  rw [get_eq bounded, signed]
  split <;> omega

theorem get_neg {v : WeightVector} (bounded : v.Bounded) {lit : Int} (nonzero : lit ≠ 0) :
    v.get (-lit) = -v.get lit := by
  rw [get_eq bounded, get_eq bounded, Int.natAbs_neg]
  simp only [signed]
  split <;> split <;> omega

theorem get_outside {v : WeightVector} (bounded : v.Bounded) {lit : Int}
    (outside : v.size ≤ lit.natAbs) : v.get lit = 0 := by
  rw [get_eq bounded, List.getD_eq_default _ _ outside]
  simp [signed]

theorem set_eq {v : WeightVector} {lit w : Int} (range : w.natAbs < 2 ^ 63) :
    v.set lit w = ⟨v.weight.set lit.natAbs (signed lit w)⟩ := by
  simp only [set, signed]
  split
  · rw [i64_of_range (by omega) (by omega)]
  · rfl

theorem add_eq {v : WeightVector} (bounded : v.Bounded) {lit w : Int}
    (range : w.natAbs < 2 ^ 63) (sum : (v.get lit + w).natAbs < 2 ^ 63) :
    v.add lit w = v.set lit (v.get lit + w) := by
  rw [set_eq sum, add, entry_eq bounded]
  congr 2
  simp only [signed]
  split
  · rw [i64_of_range (x := -w) (by omega) (by omega), i64_of_range (by omega) (by omega)]; omega
  · rw [i64_of_range (by omega) (by omega)]

theorem entry_set {v : WeightVector} {lit w : Int} (range : w.natAbs < 2 ^ 63)
    (inside : lit.natAbs < v.size) (i : Nat) :
    (v.set lit w).weight.getD i 0 = if i = lit.natAbs then signed lit w else v.weight.getD i 0 := by
  rw [set_eq range]
  by_cases same : i = lit.natAbs
  · subst same
    rw [List.getD_eq_getElem?_getD, List.getElem?_set_self inside, if_pos rfl]; rfl
  · rw [List.getD_eq_getElem?_getD, List.getElem?_set_ne (Ne.symm same), if_neg same,
      List.getD_eq_getElem?_getD]

@[simp] theorem size_set {v : WeightVector} {lit w : Int} : (v.set lit w).size = v.size := by
  simp [set, size]

@[simp] theorem size_add {v : WeightVector} {lit w : Int} : (v.add lit w).size = v.size := by
  simp [add, size]

@[simp] theorem size_pushBack {v : WeightVector} {w : Int} : (v.pushBack w).size = v.size + 1 := by
  simp [pushBack, size]

theorem bounded_set {v : WeightVector} (bounded : v.Bounded) {lit w : Int}
    (range : w.natAbs < 2 ^ 63) (inside : lit.natAbs < v.size) : (v.set lit w).Bounded := by
  intro i
  rw [entry_set range inside]
  split
  · simp only [signed]; split <;> omega
  · exact bounded i

theorem get_set {v : WeightVector} (bounded : v.Bounded) {k w : Int}
    (range : w.natAbs < 2 ^ 63) (inside : k.natAbs < v.size) (nonzero : k ≠ 0) (l : Int) :
    (v.set k w).get l = if l = k then w else if l = -k then -w else v.get l := by
  rw [get_eq (bounded_set bounded range inside), entry_set range inside]
  by_cases same : l = k
  · subst same; rw [if_pos rfl, if_pos rfl, signed_signed]
  · rw [if_neg same]
    by_cases opposite : l = -k
    · subst opposite
      rw [if_pos rfl, if_pos (by omega)]
      simp only [signed]
      split <;> split <;> omega
    · rw [if_neg opposite, if_neg (by omega), get_eq bounded]

theorem softSum_set {v : WeightVector} (bounded : v.Bounded) {k w : Int} (γ : Gauge)
    (range : w.natAbs < 2 ^ 63) (inside : k.natAbs < v.size) (nonzero : k ≠ 0) :
    softSum γ (v.set k w) + charge γ k (v.get k) = softSum γ v + charge γ k w := by
  have side : ∀ x, charge γ (k.natAbs : Int) (signed k x) = charge γ k x := by
    intro x
    simp only [signed]
    split
    · have : (k.natAbs : Int) = -k := by omega
      rw [this, charge_neg]
    · have : (k.natAbs : Int) = k := by omega
      rw [this]
  have mem : k.natAbs ∈ Finset.range v.size := Finset.mem_range.mpr inside
  have rest : ∑ i ∈ (Finset.range v.size).erase k.natAbs,
        charge γ i ((v.set k w).weight.getD i 0) =
      ∑ i ∈ (Finset.range v.size).erase k.natAbs, charge γ i (v.weight.getD i 0) := by
    apply Finset.sum_congr rfl
    intro i other
    rw [entry_set range inside, if_neg (Finset.ne_of_mem_erase other)]
  simp only [softSum, size_set]
  rw [← Finset.add_sum_erase _ _ mem, ← Finset.add_sum_erase _ _ mem, rest,
    entry_set range inside, if_pos rfl, side, entry_eq bounded, side]
  omega

theorem softSum_append {v : WeightVector} (γ : Gauge) (n : Nat) :
    softSum γ ⟨v.weight ++ List.replicate n 0⟩ = softSum γ v := by
  induction n with
  | zero => simp
  | succ n ih =>
    rw [← ih, List.replicate_succ', ← List.append_assoc]
    simp only [softSum, size, List.length_append, List.length_singleton, Finset.sum_range_succ]
    rw [List.getD_append_right _ _ _ _ (by simp)]
    simp only [List.length_append, Nat.sub_self, List.getD_cons_zero, charge_zero, Nat.add_zero]
    apply Finset.sum_congr rfl
    intro i mem
    rw [List.getD_append _ _ _ _ (by simpa using mem)]

theorem bounded_append {v : WeightVector} (bounded : v.Bounded) (n : Nat) :
    Bounded ⟨v.weight ++ List.replicate n 0⟩ := by
  intro i
  by_cases old : i < v.weight.length
  · rw [List.getD_append _ _ _ _ old]; exact bounded i
  · rw [List.getD_append_right _ _ _ _ (Nat.le_of_not_lt old), List.getD_eq_getElem?_getD,
      List.getElem?_replicate]
    split <;> simp

theorem get_append {v : WeightVector} (n : Nat) (lit : Int) :
    get ⟨v.weight ++ List.replicate n 0⟩ lit = v.get lit := by
  have entry : (v.weight ++ List.replicate n 0).getD lit.natAbs 0 = v.weight.getD lit.natAbs 0 := by
    by_cases old : lit.natAbs < v.weight.length
    · rw [List.getD_append _ _ _ _ old]
    · rw [List.getD_append_right _ _ _ _ (Nat.le_of_not_lt old),
        List.getD_eq_default _ _ (Nat.le_of_not_lt old), List.getD_eq_getElem?_getD,
        List.getElem?_replicate]
      split <;> rfl
  simp only [get, entry]

theorem entry_le_softSum (v : WeightVector) (i : Nat) :
    (v.weight.getD i 0).natAbs ≤ softSum everyLit v := by
  by_cases inside : i < v.size
  · rw [← charge_every (l := i)]
    exact Finset.single_le_sum (f := fun i : Nat => charge everyLit i (v.weight.getD i 0))
      (fun _ _ => Nat.zero_le _) (Finset.mem_range.mpr inside)
  · rw [List.getD_eq_default _ _ (Nat.le_of_not_lt inside)]; simp

end WeightVector
end EvalMaxSat
