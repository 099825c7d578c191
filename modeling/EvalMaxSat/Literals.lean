import Mathlib.Tactic

/-!
Literals as nonzero integers, clauses, and their meaning under total assignments.
-/
namespace Literals

abbrev Assignment := Nat → Bool
abbrev Clause := List Int
abbrev Cnf := List Clause

def litTrue (m : Assignment) (l : Int) : Bool :=
  if 0 < l then m l.natAbs else !m l.natAbs

def Holds (m : Assignment) (c : Clause) : Prop := ∃ l ∈ c, litTrue m l = true

def Models (m : Assignment) (f : Cnf) : Prop := ∀ c ∈ f, Holds m c

def AllTrue (m : Assignment) (ls : List Int) : Prop := ∀ l ∈ ls, litTrue m l = true

def Inconsistent (f : Cnf) (ls : List Int) : Prop := ∀ m, Models m f → ¬ AllTrue m ls

def trueCount (m : Assignment) (ls : List Int) : Nat := ls.countP (litTrue m)

def Within (n : Nat) (ls : List Int) : Prop := ∀ l ∈ ls, l ≠ 0 ∧ l.natAbs ≤ n

def AgreeUpTo (n : Nat) (m k : Assignment) : Prop := ∀ v ≤ n, k v = m v

/-- `v` is the least value of the models of `f` that are `m` on the variables of `V`. -/
def LeastOver (V : Nat → Prop) (f : Cnf) (value : Assignment → Nat) (m : Assignment) (v : Nat) :
    Prop :=
  IsLeast {x | ∃ k : Assignment, (∀ u, V u → k u = m u) ∧ Models k f ∧ value k = x} v

instance (m : Assignment) (c : Clause) : Decidable (Holds m c) :=
  inferInstanceAs (Decidable (∃ l ∈ c, litTrue m l = true))

instance (m : Assignment) (f : Cnf) : Decidable (Models m f) :=
  inferInstanceAs (Decidable (∀ c ∈ f, Holds m c))

theorem litTrue_neg {m : Assignment} {l : Int} (nonzero : l ≠ 0) :
    litTrue m (-l) = !litTrue m l := by
  simp only [litTrue, Int.natAbs_neg]
  by_cases pos : 0 < l
  · rw [if_neg (by omega), if_pos pos]
  · rw [if_pos (by omega), if_neg pos, Bool.not_not]

theorem litTrue_natCast {m : Assignment} {v : Nat} (pos : 0 < v) : litTrue m (v : Int) = m v := by
  rw [litTrue, if_pos (by omega), Int.natAbs_natCast]

theorem litTrue_congr {m k : Assignment} {l : Int} (same : k l.natAbs = m l.natAbs) :
    litTrue k l = litTrue m l := by simp [litTrue, same]

theorem litTrue_agree {n : Nat} {m k : Assignment} {l : Int} (agree : AgreeUpTo n m k)
    (bound : l.natAbs ≤ n) : litTrue k l = litTrue m l := litTrue_congr (agree _ bound)

theorem trueCount_agree {n : Nat} {m k : Assignment} {ls : List Int} (agree : AgreeUpTo n m k)
    (within : Within n ls) : trueCount k ls = trueCount m ls := by
  apply List.countP_congr
  intro l mem
  rw [litTrue_agree agree (within l mem).2]

theorem holds_agree {n : Nat} {m k : Assignment} {c : Clause} (agree : AgreeUpTo n m k)
    (within : Within n c) : Holds k c ↔ Holds m c := by
  constructor
  · rintro ⟨l, mem, true_l⟩
    exact ⟨l, mem, by rwa [litTrue_agree agree (within l mem).2] at true_l⟩
  · rintro ⟨l, mem, true_l⟩
    exact ⟨l, mem, by rwa [litTrue_agree agree (within l mem).2]⟩

theorem models_agree {n : Nat} {m k : Assignment} {f : Cnf} (agree : AgreeUpTo n m k)
    (within : ∀ c ∈ f, Within n c) : Models k f ↔ Models m f := by
  constructor
  · intro models c mem
    exact (holds_agree agree (within c mem)).mp (models c mem)
  · intro models c mem
    exact (holds_agree agree (within c mem)).mpr (models c mem)

theorem models_append {m : Assignment} {f g : Cnf} :
    Models m (f ++ g) ↔ Models m f ∧ Models m g := by
  simp only [Models, List.mem_append]
  constructor
  · intro h; exact ⟨fun c mem => h c (Or.inl mem), fun c mem => h c (Or.inr mem)⟩
  · rintro ⟨left, right⟩ c (mem | mem)
    · exact left c mem
    · exact right c mem

theorem models_singleton {m : Assignment} {c : Clause} : Models m [c] ↔ Holds m c := by
  simp [Models]

theorem holds_unit {m : Assignment} {l : Int} : Holds m [l] ↔ litTrue m l = true := by
  simp [Holds]

theorem agree_refl (n : Nat) (m : Assignment) : AgreeUpTo n m m := fun _ _ => rfl

theorem agree_trans {n k : Nat} {a b c : Assignment} (le : n ≤ k) (first : AgreeUpTo n a b)
    (second : AgreeUpTo k b c) : AgreeUpTo n a c :=
  fun v bound => (second v (bound.trans le)).trans (first v bound)

theorem within_mono {n k : Nat} {ls : List Int} (le : n ≤ k) (within : Within n ls) :
    Within k ls := fun l mem => ⟨(within l mem).1, (within l mem).2.trans le⟩

theorem inconsistent_mono {f g : Cnf} {ls : List Int} (sub : f ⊆ g) (h : Inconsistent f ls) :
    Inconsistent g ls :=
  fun m models => h m (fun c mem => models c (sub mem))

theorem inconsistent_sub {f : Cnf} {ls ks : List Int} (sub : ls ⊆ ks) (h : Inconsistent f ls) :
    Inconsistent f ks :=
  fun m models all => h m models (fun l mem => all l (sub mem))

theorem inconsistent_swap {f : Cnf} {a b : Int} (h : Inconsistent f [a, b]) :
    Inconsistent f [b, a] := by
  apply inconsistent_sub _ h
  intro l mem
  simp only [List.mem_cons, List.not_mem_nil, or_false] at mem ⊢
  exact mem.symm

theorem leastOver_unique {V : Nat → Prop} {f : Cnf} {value : Assignment → Nat} {m : Assignment}
    {v w : Nat} (first : LeastOver V f value m v) (second : LeastOver V f value m w) : v = w :=
  first.unique second

def assign (m : Assignment) (v : Nat) (b : Bool) : Assignment := fun u => if u = v then b else m u

theorem assign_agree {n v : Nat} {m : Assignment} {b : Bool} (fresh : n < v) :
    AgreeUpTo n m (assign m v b) := by
  intro u bound
  have : u ≠ v := by omega
  simp [assign, this]

@[simp] theorem assign_self {m : Assignment} {v : Nat} {b : Bool} : assign m v b v = b := by
  simp [assign]

end Literals
