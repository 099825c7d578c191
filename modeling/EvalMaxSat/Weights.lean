import Mathlib.Tactic

/-!
Weights. `t_weight` is an unsigned 64-bit integer and the entries of a `WeightVector`
are signed 64-bit integers; both wrap around.
-/
namespace EvalMaxSat

/-- Conversion to `unsigned long long`. -/
def u64 (x : Int) : Nat := (x % 2 ^ 64).toNat

/-- Conversion to `long long`. -/
def i64 (x : Int) : Int := Int.bmod x (2 ^ 64)

/-- Conversion to `int`. -/
def i32 (x : Int) : Int := Int.bmod x (2 ^ 32)

/-- `std::numeric_limits<t_weight>::max()`. -/
def maxWeight : Nat := 2 ^ 64 - 1

theorem u64_of_nat {n : Nat} (bound : n < 2 ^ 64) : u64 (n : Int) = n := by
  simp only [u64]; omega

theorem u64_toNat {x : Int} (nonneg : 0 ≤ x) (bound : x < 2 ^ 64) : u64 x = x.toNat := by
  simp only [u64]; omega

theorem u64_add (x y : Int) : u64 (u64 x + y) = u64 (x + y) := by
  simp only [u64]; omega

theorem u64_lt (x : Int) : u64 x < 2 ^ 64 := by
  simp only [u64]; omega

theorem i64_of_range {x : Int} (lower : -2 ^ 63 ≤ x) (upper : x < 2 ^ 63) : i64 x = x := by
  simp only [i64, Int.bmod]; omega

theorem i32_of_nat {n : Nat} (bound : n < 2 ^ 31) : i32 n = n := by
  simp only [i32, Int.bmod]; omega

structure WeightVector where
  weight : List Int
  deriving DecidableEq, Repr

namespace WeightVector

def size (v : WeightVector) : Nat := v.weight.length

/-- The index `abs(lit)`, where the least `int` is its own absolute value. -/
def index (lit : Int) : Nat := u64 (i32 lit.natAbs)

theorem index_of_lt {lit : Int} (bound : lit.natAbs < 2 ^ 31) : index lit = lit.natAbs := by
  rw [index, i32_of_nat bound, u64_of_nat (by omega)]

def pushBack (v : WeightVector) (x : Int) : WeightVector := ⟨v.weight ++ [x]⟩

/-- `operator[]`: the entry of the variable, with the sign of the literal. -/
def get (v : WeightVector) (lit : Int) : Int :=
  if lit < 0 then i64 (-(v.weight.getD lit.natAbs 0)) else v.weight.getD lit.natAbs 0

def set (v : WeightVector) (lit w : Int) : WeightVector :=
  ⟨v.weight.set lit.natAbs (if lit < 0 then i64 (-w) else w)⟩

def add (v : WeightVector) (lit w : Int) : WeightVector :=
  ⟨v.weight.set lit.natAbs
    (i64 (v.weight.getD lit.natAbs 0 + if lit < 0 then i64 (-w) else w))⟩

end WeightVector
end EvalMaxSat
