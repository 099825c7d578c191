import EvalMaxSat.LoaderAndChecker
import EvalMaxSat.SafeHardening

/-!
When the loader takes the numbers of a file as they are written: weights pass through two words of
64 bits, literals through one of 32, and nothing checks that they fit.
-/
namespace EvalMaxSat
open Literals InputStreams InputStream MaxSatSolver EvalMaxSAT

variable {K : Type} {core : K} {t : EvalMaxSAT K} {B : Type} [InputStream B]
  {refills : List (List Nat)}

section Classes

/-- A clause is hard with the mark `h` or with a weight from the written top on. -/
def markedHard (top mark : Option Nat) : Bool := mark.all fun w => top.any fun t => t ≤ w

/-- A hard clause stays at the top or above, a soft one fits in a `long long` and stays below. -/
def ClassKept (top mark : Option Nat) : Prop :=
  if markedHard top mark then weightRead top ≤ weightRead mark
  else weightRead mark < weightRead top ∧ mark.getD 0 < 2 ^ 63

instance (top mark : Option Nat) : Decidable (ClassKept top mark) := by
  unfold ClassKept
  infer_instance

def AllKept : Option Nat → List Entry → Prop
  | _, [] => True
  | _, .top mark :: entries => AllKept mark entries
  | top, .clause mark _ :: entries => ClassKept top mark ∧ AllKept top entries

def decideAllKept : (top : Option Nat) → (entries : List Entry) → Decidable (AllKept top entries)
  | _, [] => inferInstanceAs (Decidable True)
  | _, .top mark :: entries => decideAllKept mark entries
  | top, .clause mark _ :: entries =>
    have := decideAllKept top entries
    inferInstanceAs (Decidable (ClassKept top mark ∧ AllKept top entries))

instance (top : Option Nat) (entries : List Entry) : Decidable (AllKept top entries) :=
  decideAllKept top entries

end Classes

section Literals

end Literals

section Files

end Files
end EvalMaxSat
