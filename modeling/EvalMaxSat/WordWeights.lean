import EvalMaxSat.Weights
import EvalMaxSat.PartialMachines

/-!
The weights in machine words. The reading operator has no branch: it gives the weight of a literal
its sign with the bits of the literal. In every sequence of operations it reads what the vector of
signed numbers gives, wrapping around where that does.
-/
namespace EvalMaxSat
open PartialMachines

/-- The vector of `long long`s behind a `WeightVector`. -/
structure WordWeights where
  weight : List (BitVec 64)
  deriving DecidableEq, Repr

namespace WordWeights

def index (lit : BitVec 32) : Nat := (lit.abs.signExtend 64).toNat

/-- `lit >> 31`, as a `long long`. -/
def mask (lit : BitVec 32) : BitVec 64 := (lit.sshiftRight 31).signExtend 64

def push_back (v : WordWeights) (x : BitVec 64) : WordWeights := ⟨v.weight ++ [x]⟩

/-- `operator[]`. -/
def get (v : WordWeights) (lit : BitVec 32) : Option (BitVec 64) :=
  v.weight[index lit]?.map fun w => (w ^^^ mask lit) - mask lit

def set (v : WordWeights) (lit : BitVec 32) (w : BitVec 64) : Option WordWeights :=
  if index lit < v.weight.length then
    some ⟨v.weight.set (index lit) (if lit.slt 0 then -w else w)⟩
  else none

def add (v : WordWeights) (lit : BitVec 32) (w : BitVec 64) : Option WordWeights := do
  let x ← v.weight[index lit]?
  return ⟨v.weight.set (index lit) (x + if lit.slt 0 then -w else w)⟩

end WordWeights

inductive WeightCall where
  | push_back (x : BitVec 64)
  | get (lit : BitVec 32)
  | set (lit : BitVec 32) (w : BitVec 64)
  | add (lit : BitVec 32) (w : BitVec 64)
  deriving DecidableEq, Repr

namespace WeightCall

def Negatable : WeightCall → Prop
  | .push_back _ => True
  | .get lit | .set lit _ | .add lit _ => lit ≠ BitVec.intMin 32

instance decidableNegatable : (call : WeightCall) → Decidable call.Negatable
  | .push_back _ => inferInstanceAs (Decidable True)
  | .get lit | .set lit _ | .add lit _ => inferInstanceAs (Decidable (lit ≠ BitVec.intMin 32))

def onWords : WeightCall → WordWeights → Option (Option Int × WordWeights)
  | .push_back x, v => some (none, v.push_back x)
  | .get lit, v => (v.get lit).map fun w => (some w.toInt, v)
  | .set lit w, v => (v.set lit w).map fun v => (none, v)
  | .add lit w, v => (v.add lit w).map fun v => (none, v)

/-- The vector of signed numbers, where the literal has an entry. -/
def onNumbers : WeightCall → WeightVector → Option (Option Int × WeightVector)
  | .push_back x, v => some (none, v.pushBack x.toInt)
  | .get lit, v =>
    if lit.toInt.natAbs < v.size then some (some (v.get lit.toInt), v) else none
  | .set lit w, v =>
    if lit.toInt.natAbs < v.size then some (none, v.set lit.toInt w.toInt) else none
  | .add lit w, v =>
    if lit.toInt.natAbs < v.size then some (none, v.add lit.toInt w.toInt) else none

end WeightCall

section Words
variable {lit : BitVec 32} {w x : BitVec 64}

theorem abs_toInt (negatable : lit ≠ BitVec.intMin 32) : lit.abs.toInt = lit.toInt.natAbs := by
  have lower := BitVec.le_toInt lit
  have upper := BitVec.toInt_lt (x := lit)
  have least : lit.toInt ≠ -2 ^ 31 := by
    intro same
    apply negatable
    apply BitVec.eq_of_toInt_eq
    rw [same]
    decide
  unfold BitVec.abs
  by_cases negative : lit.msb = true
  · have sign := BitVec.msb_eq_toInt ▸ negative
    have minus : (-lit).toInt = (-lit.toInt).bmod (2 ^ 32) := BitVec.toInt_neg
    simp only [decide_eq_true_eq] at sign
    rw [if_pos negative]
    change (-lit).toInt = _
    rw [minus]
    simp only [Int.bmod]
    omega
  · have sign := BitVec.msb_eq_toInt ▸ negative
    simp only [decide_eq_true_eq] at sign
    rw [if_neg negative]
    omega

theorem index_eq (negatable : lit ≠ BitVec.intMin 32) : WordWeights.index lit = lit.toInt.natAbs := by
  have value := abs_toInt negatable
  have upper := BitVec.toInt_lt (x := lit.abs)
  have wide : (lit.abs.signExtend 64).toInt = lit.toInt.natAbs := by
    rw [BitVec.toInt_signExtend_of_le (by omega), value]
  unfold WordWeights.index
  rw [BitVec.toInt_eq_toNat_cond] at wide
  have small := (lit.abs.signExtend 64).isLt
  split at wide <;> omega

theorem mask_eq (lit : BitVec 32) :
    WordWeights.mask lit = if lit.toInt < 0 then BitVec.allOnes 64 else 0 := by
  have lower := BitVec.le_toInt lit
  have upper := BitVec.toInt_lt (x := lit)
  apply BitVec.eq_of_toInt_eq
  unfold WordWeights.mask
  rw [BitVec.toInt_signExtend_of_le (by omega), BitVec.toInt_sshiftRight,
    Int.shiftRight_eq_div_pow]
  split
  · rw [BitVec.toInt_allOnes]
    norm_num at lower upper ⊢
    omega
  · have zero : (0 : BitVec 64).toInt = 0 := rfl
    rw [zero]
    norm_num at lower upper ⊢
    omega

theorem signed_read (lit : BitVec 32) (w : BitVec 64) :
    ((w ^^^ WordWeights.mask lit) - WordWeights.mask lit).toInt =
      if lit.toInt < 0 then i64 (-w.toInt) else w.toInt := by
  rw [mask_eq]
  split
  · have minus_one : BitVec.allOnes 64 = -1 := by decide
    rw [BitVec.xor_allOnes, minus_one, BitVec.sub_neg]
    have negated : ~~~w + 1 = -w := (BitVec.neg_eq_not_add w).symm
    rw [negated, BitVec.toInt_neg]
    rfl
  · simp

theorem signed_write (lit : BitVec 32) (w : BitVec 64) :
    (if lit.slt 0 then -w else w).toInt = if lit.toInt < 0 then i64 (-w.toInt) else w.toInt := by
  have sign : lit.slt 0 = true ↔ lit.toInt < 0 := BitVec.slt_iff_toInt_lt
  rw [if_congr sign rfl rfl]
  split
  · rw [BitVec.toInt_neg]
    rfl
  · rfl

variable {v : WordWeights} {u : WeightVector}

theorem size_same (same : u.weight = v.weight.map BitVec.toInt) : u.size = v.weight.length := by
  unfold WeightVector.size
  rw [same, List.length_map]

theorem entry_same (same : u.weight = v.weight.map BitVec.toInt) (negatable : lit ≠ BitVec.intMin 32)
    (inside : WordWeights.index lit < v.weight.length) :
    u.weight.getD lit.toInt.natAbs 0 = v.weight[WordWeights.index lit].toInt := by
  rw [← index_eq negatable, same, List.getD_eq_getElem?_getD, List.getElem?_map,
    List.getElem?_eq_getElem inside]
  rfl

theorem weightCall_agrees {call : WeightCall} (negatable : call.Negatable)
    (same : u.weight = v.weight.map BitVec.toInt) :
    SameStep (fun (v : WordWeights) (u : WeightVector) => u.weight = v.weight.map BitVec.toInt)
      (call.onWords v) (call.onNumbers u) := by
  have size := size_same same
  cases call with
  | push_back x =>
    constructor
    unfold WeightVector.pushBack WordWeights.push_back
    rw [same, List.map_append]
    rfl
  | get lit =>
    simp only [WeightCall.onWords, WeightCall.onNumbers, WordWeights.get, ← index_eq negatable, size]
    by_cases inside : WordWeights.index lit < v.weight.length
    · have value : u.get lit.toInt = ((v.weight[WordWeights.index lit] ^^^ WordWeights.mask lit) -
          WordWeights.mask lit).toInt := by
        unfold WeightVector.get
        rw [signed_read, entry_same same negatable inside]
      rw [if_pos inside, value, List.getElem?_eq_getElem inside]
      exact .answered _ same
    · rw [if_neg inside, List.getElem?_eq_none (by omega)]
      exact .refused
  | set lit w =>
    simp only [WeightCall.onWords, WeightCall.onNumbers, WordWeights.set, ← index_eq negatable, size]
    by_cases inside : WordWeights.index lit < v.weight.length
    · rw [if_pos inside, if_pos inside]
      constructor
      unfold WeightVector.set
      rw [← index_eq negatable, same, List.map_set, signed_write]
    · rw [if_neg inside, if_neg inside]
      exact .refused
  | add lit w =>
    simp only [WeightCall.onWords, WeightCall.onNumbers, WordWeights.add, ← index_eq negatable, size]
    by_cases inside : WordWeights.index lit < v.weight.length
    · rw [if_pos inside, List.getElem?_eq_getElem inside]
      constructor
      unfold WeightVector.add
      rw [entry_same same negatable inside, ← index_eq negatable, same, List.map_set, BitVec.toInt_add, signed_write]
      rfl
    · rw [if_neg inside, List.getElem?_eq_none (by omega)]
      exact .refused

/-- In every sequence of operations the words give what the signed numbers give, and an operation
fails on the ones if and only if it fails on the others. -/
theorem words_are_numbers {calls : List WeightCall} (negatable : ∀ call ∈ calls, call.Negatable) :
    runs WeightCall.onWords calls ⟨[]⟩ = runs WeightCall.onNumbers calls ⟨[]⟩ := by
  apply runs_agree (R := fun v u => u.weight = v.weight.map BitVec.toInt)
  · intro call mem v u same
    have legal := negatable call mem
    exact weightCall_agrees legal same
  · rfl

theorem words_are_numbers_small :
    runs WeightCall.onWords [.push_back 0, .push_back 0, .set (-1) 5, .add 1 (-2), .get 1, .get (-1)]
      ⟨[]⟩ = some [none, none, none, none, some (-7), some 7] := by
  have numbers : runs WeightCall.onNumbers
      [.push_back 0, .push_back 0, .set (-1) 5, .add 1 (-2), .get 1, .get (-1)] ⟨[]⟩ =
      some [none, none, none, none, some (-7), some 7] := by decide +kernel
  exact (words_are_numbers (by decide)).trans numbers

end Words
end EvalMaxSat
