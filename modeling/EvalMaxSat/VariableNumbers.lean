import EvalMaxSat.Replays
import EvalMaxSat.UnitWeights

/-!
The numbers of variables: the back end counts them on its own, and a clause that mentions a
variable it does not know yet makes its count run ahead of the tables of weights.
-/
namespace EvalMaxSat
open Literals OrderedContainers EvalMaxSAT

variable {K : Type} {core : K} {s t : EvalMaxSAT K} {u : Update} {x : Int}

/-- The two tables have an entry for 0 and one for each variable up to the last of the back end,
which is an `int`. -/
def Aligned (s : EvalMaxSAT K) : Prop :=
  (s.poids.size : Int) = i32 s.solver.nVar + 1 ∧
    (s.mapAssum2Card.length : Int) = i32 s.solver.nVar + 1

/-- The literals that a call uses as an index of `_poids`, with the size of `_poids` then. No
cardinality is relaxed before the first solve. -/
def accesses : Update → EvalMaxSAT K → List (Int × Nat)
  | .addClause [lit] none, s => [(lit, s.poids.size)]
  | .addClause [lit] (some w), s =>
    if w = 0 then [] else [(lit, (newVars (lit.natAbs + 1 - s.poids.size) s).poids.size)]
  | .addWeight lit _, s => [(lit, (newVars (lit.natAbs + 1 - s.poids.size) s).poids.size)]
  | _, _ => []

/-- The entry of `_poids` that a new soft variable gets, and the `int` returned for it. -/
def Numbered (s : EvalMaxSAT K) (u : Update) (x : Int) (t : EvalMaxSAT K) : Prop :=
  match u with
  | .newSoftVar value w => i32 x = s.poids.size ∧
      t.poids.weight = s.poids.weight ++ [i64 (if value then w else -w)]
  | .addClause (_ :: _ :: _) (some w) => w ≠ 0 → i32 x = s.poids.size ∧
      t.poids.weight = s.poids.weight ++ [i64 w.natAbs]
  | _ => True

/-- A call from `s` that returns `x` and leaves `t`. -/
structure CallStep (K : Type) where
  before : EvalMaxSAT K
  call : Update
  returned : Int
  after : EvalMaxSAT K

/-- The counts agree after the call, it stays inside `_poids`, and the weight of a new soft
variable is where the variable says. -/
structure InStep (c : CallStep K) : Prop where
  aligned : Aligned c.after
  inside : ∀ a ∈ accesses c.call c.before, WeightVector.index a.1 < a.2
  numbered : Numbered c.before c.call c.returned c.after

/-- A hard clause mentions variables of the back end only, and so does a soft one with several
literals, which comes with one more variable. No variable is made behind the largest `int`. -/
def Mentions (s : EvalMaxSAT K) : Update → Prop
  | .newVar | .newSoftVar _ _ => s.solver.nVar + 1 < 2 ^ 31
  | .addClause clause none => ∀ l ∈ clause, l.natAbs ≤ s.solver.nVar
  | .addClause [] (some _) => True
  | .addClause [lit] (some w) => w ≠ 0 → lit.natAbs < 2 ^ 31
  | .addClause clause (some w) =>
    w ≠ 0 → s.solver.nVar + 1 < 2 ^ 31 ∧ ∀ l ∈ clause, l.natAbs ≤ s.solver.nVar + 1
  | .addWeight lit _ => lit.natAbs < 2 ^ 31
  | _ => True

/-- The literals are `int`s other than 0. -/
def LitsInRange : Update → Prop
  | .addClause clause _ => ∀ l ∈ clause, l ≠ 0 ∧ -2 ^ 31 ≤ l ∧ l < 2 ^ 31
  | .addWeight lit _ => lit ≠ 0 ∧ -2 ^ 31 ≤ lit ∧ lit < 2 ^ 31
  | _ => True

instance decidableMentions (s : EvalMaxSAT K) : (u : Update) → Decidable (Mentions s u)
  | .newVar | .newSoftVar _ _ => inferInstanceAs (Decidable (s.solver.nVar + 1 < 2 ^ 31))
  | .addClause clause none => inferInstanceAs (Decidable (∀ l ∈ clause, l.natAbs ≤ s.solver.nVar))
  | .addClause [lit] (some w) => inferInstanceAs (Decidable (w ≠ 0 → lit.natAbs < 2 ^ 31))
  | .addClause (l :: l' :: c) (some w) => inferInstanceAs (Decidable (w ≠ 0 →
    s.solver.nVar + 1 < 2 ^ 31 ∧ ∀ a ∈ l :: l' :: c, a.natAbs ≤ s.solver.nVar + 1))
  | .addWeight lit _ => inferInstanceAs (Decidable (lit.natAbs < 2 ^ 31))
  | .addClause [] (some _) | .unactivateDelayStrategy | .unactivateMultiSolveStrategy
  | .unactivateUBStrategy | .disableOptimize | .setIncremental _ | .setNInputVars _ =>
    inferInstanceAs (Decidable True)

instance decidableLitsInRange : (u : Update) → Decidable (LitsInRange u)
  | .addClause clause _ => inferInstanceAs (Decidable (∀ l ∈ clause, l ≠ 0 ∧ -2 ^ 31 ≤ l ∧ l < 2 ^ 31))
  | .addWeight lit _ => inferInstanceAs (Decidable (lit ≠ 0 ∧ -2 ^ 31 ≤ lit ∧ lit < 2 ^ 31))
  | .newVar | .newSoftVar _ _ | .unactivateDelayStrategy | .unactivateMultiSolveStrategy
  | .unactivateUBStrategy | .disableOptimize | .setIncremental _ | .setNInputVars _ =>
    inferInstanceAs (Decidable True)

/-- Calls on a fresh object, before any solve. -/
inductive Calls (core : K) : List (CallStep K) → EvalMaxSAT K → Prop
  | fresh : Calls core [] (.fresh core)
  | call {steps : List (CallStep K)} {s t : EvalMaxSAT K} {u : Update} {x : Int} :
      Calls core steps s → u.apply s = some (x, t) → Calls core (steps ++ [⟨s, u, x, t⟩]) t

section Counts

theorem addClause_upto {c : Clause} {S : Solver_cadical K} {m : Nat} (start : S.nVar ≤ m)
    (all : ∀ l ∈ c, l.natAbs ≤ m) : (S.addClause c).nVar ≤ m := by
  have fold : ∀ n ≤ m, c.foldl (fun n l => if n < l.natAbs then l.natAbs else n) n ≤ m := by
    induction c with
    | nil => exact fun n upto => upto
    | cons l c ih =>
      intro n upto
      have here := all l (by simp)
      rw [List.foldl_cons]
      apply ih fun a mem => all a (by simp [mem])
      split <;> assumption
  exact fold S.nVar start

theorem addClause_count (c : Clause) (S : Solver_cadical K) :
    S.nVar ≤ (S.addClause c).nVar ∧ ((S.addClause c).nVar = S.nVar ↔ ∀ l ∈ c, l.natAbs ≤ S.nVar) := by
  have fold : ∀ (c : Clause) (n : Nat),
      n ≤ c.foldl (fun n l => if n < l.natAbs then l.natAbs else n) n ∧
      (c.foldl (fun n l => if n < l.natAbs then l.natAbs else n) n = n ↔ ∀ l ∈ c, l.natAbs ≤ n) := by
    intro c
    induction c with
    | nil => simp
    | cons l c ih =>
      intro n
      obtain ⟨le, same⟩ := ih (if n < l.natAbs then l.natAbs else n)
      rw [List.foldl_cons]
      by_cases more : n < l.natAbs
      · rw [if_pos more] at le same ⊢
        refine ⟨by omega, iff_of_false (by omega) fun all => ?_⟩
        have := all l (by simp)
        omega
      · rw [if_neg more] at le same ⊢
        refine ⟨le, same.trans ?_⟩
        simp only [List.mem_cons, forall_eq_or_imp]
        constructor
        · intro all; exact ⟨by omega, all⟩
        · intro all; exact all.2
  exact fold c S.nVar

structure Counted (s : EvalMaxSAT K) (p m n : Nat) : Prop where
  weights : s.poids.size = p
  entries : s.mapAssum2Card.length = m
  known : s.solver.nVar = n
  none_yet : s.cards = []
  unsolved : s.solutionCost = maxWeight

variable {p m n : Nat}

theorem aligned_iff (counted : Counted s (p + 1) (p + 1) n) (table : p ≤ 2 ^ 31) (known : n ≤ 2 ^ 31) :
    Aligned s ↔ n = p ∧ n < 2 ^ 31 := by
  unfold Aligned
  rw [counted.weights, counted.entries, counted.known]
  by_cases inside : n < 2 ^ 31
  · rw [i32_of_nat inside]
    omega
  · have last : n = 2 ^ 31 := by omega
    have wrapped : i32 (2 ^ 31 : Nat) = -2 ^ 31 := by decide
    rw [last, wrapped]
    omega

theorem relax_nothing (none_yet : s.cards = []) (lit : Int) : (s.relax lit).2 = s := by
  unfold EvalMaxSAT.relax
  cases s.cardOf lit.natAbs with
  | none => rfl
  | some e =>
    simp only [none_yet, List.getElem?_nil]

theorem counted_clearUnit (counted : Counted s p m n) (lit : Int) :
    Counted (s.clearUnit lit) p m n := by
  unfold EvalMaxSAT.clearUnit
  split
  · exact counted
  · split
    · dsimp only
      rw [relax_nothing]
      · exact ⟨WeightVector.size_set.trans counted.weights, counted.entries, counted.known,
          counted.none_yet, counted.unsolved⟩
      · exact counted.none_yet
    · exact ⟨WeightVector.size_set.trans counted.weights, counted.entries, counted.known,
        counted.none_yet, counted.unsolved⟩

structure Raised (clause : Clause) (n k : Nat) : Prop where
  least : n ≤ k
  same : k = n ↔ ∀ l ∈ clause, l.natAbs ≤ n
  most : ∀ b, n ≤ b → (∀ l ∈ clause, l.natAbs ≤ b) → k ≤ b

theorem counted_addHardClause (counted : Counted s p m n) (clause : Clause) :
    ∃ k, Counted (s.addHardClause clause) p m k ∧ Raised clause n k := by
  have add : ∀ t : EvalMaxSAT K, Counted t p m n → ∃ k,
      Counted { t with solver := t.solver.addClause clause } p m k ∧ Raised clause n k := by
    intro t before
    obtain ⟨le, same⟩ := addClause_count clause t.solver
    rw [before.known] at le same
    refine ⟨_, ⟨before.weights, before.entries, rfl, before.none_yet, before.unsolved⟩, le, same, ?_⟩
    exact fun b start all => addClause_upto (by rw [before.known]; exact start) all
  unfold EvalMaxSAT.addHardClause
  split
  · exact add _ (counted_clearUnit counted _)
  · exact add _ counted

theorem counted_newVars (counted : Counted s p m n) (k : Nat) :
    Counted (newVars k s) (p + k) (m + k) (n + k) := by
  induction k generalizing s p m n with
  | zero => exact counted
  | succ k ih =>
    have next : Counted s.newVar.2 (p + 1) (m + 1) (n + 1) :=
      ⟨WeightVector.size_pushBack.trans (by rw [counted.weights]),
        (List.length_append).trans (by rw [counted.entries]; rfl),
        (congrArg (· + 1) counted.known), counted.none_yet, counted.unsolved⟩
    have rest := ih next
    rw [newVars]
    convert rest using 1 <;> omega

theorem counted_newSoftVar (counted : Counted s p m n) (value : Bool) (w : Int) :
    Counted (s.newSoftVar value w).2 (p + 1) (m + 1) (n + 1) :=
  ⟨WeightVector.size_pushBack.trans (by rw [counted.weights]),
    (List.length_append).trans (by rw [counted.entries]; rfl),
    (congrArg (· + 1) counted.known), counted.none_yet, counted.unsolved⟩

theorem counted_addPositiveWeight (counted : Counted s p m n) (lit w : Int) :
    Counted (s.addPositiveWeight lit w) p m n := by
  have shift : Counted (s.shiftWeight lit w) p m n := by
    unfold EvalMaxSAT.shiftWeight
    split <;> exact ⟨WeightVector.size_add.trans counted.weights, counted.entries, counted.known,
      counted.none_yet, counted.unsolved⟩
  unfold EvalMaxSAT.addPositiveWeight
  split
  · exact ⟨WeightVector.size_set.trans counted.weights, counted.entries, counted.known,
      counted.none_yet, counted.unsolved⟩
  · unfold EvalMaxSAT.reindex
    split
    · rw [relax_nothing shift.none_yet]
      exact shift
    · split <;> exact ⟨shift.weights, shift.entries, shift.known, shift.none_yet, shift.unsolved⟩

theorem counted_addWeight (counted : Counted s p m n) (lit w : Int) :
    Counted (s.addWeight lit w) (p + (lit.natAbs + 1 - p)) (m + (lit.natAbs + 1 - p))
      (n + (lit.natAbs + 1 - p)) := by
  have more := counted_newVars counted (lit.natAbs + 1 - p)
  unfold EvalMaxSAT.addWeight
  rw [counted.weights]
  dsimp only
  split <;> exact counted_addPositiveWeight more _ _

theorem newSoftVar_entry (value : Bool) (w : Int) : (s.newSoftVar value w).2.poids.weight =
    s.poids.weight ++ [i64 (if value then w else -w)] := by
  unfold EvalMaxSAT.newSoftVar
  dsimp only [WeightVector.pushBack]
  congr 2
  simp only [i64]
  cases value <;> split <;> simp

theorem addHardClause_long (l l' : Int) (c : Clause) :
    (s.addHardClause (l :: l' :: c)).poids = s.poids := rfl

theorem counted_foldl (counted : Counted s p m n) {x : Int} (soft : x.natAbs ≤ n) (clause : Clause) :
    ∃ k, Counted (clause.foldl (fun s lit => s.addHardClause [x, lit]) s) p m k ∧ Raised clause n k ∧
      (clause.foldl (fun s lit => s.addHardClause [x, lit]) s).poids = s.poids := by
  induction clause generalizing s n with
  | nil => exact ⟨n, counted, ⟨Nat.le_refl n, by simp, fun b start _ => start⟩, rfl⟩
  | cons l clause ih =>
    obtain ⟨j, first, raised⟩ := counted_addHardClause counted [x, l]
    obtain ⟨k, rest, further, poids⟩ := ih first (soft.trans raised.least)
    have same := raised.same
    simp only [List.mem_cons, List.not_mem_nil, or_false, forall_eq_or_imp, forall_eq] at same
    refine ⟨k, rest, ⟨raised.least.trans further.least, ?_, fun b start all => ?_⟩, poids⟩
    · rw [List.forall_mem_cons]
      have least := further.least
      by_cases known : l.natAbs ≤ n
      · have kept : j = n := same.mpr ⟨soft, known⟩
        rw [kept] at further
        rw [further.same]
        exact (and_iff_right known).symm
      · have raises : j ≠ n := fun kept => known (same.mp kept).2
        have more := raised.least
        exact iff_of_false (by omega) fun both => known both.1
    · obtain ⟨here, later⟩ := List.forall_mem_cons.mp all
      refine further.most b (raised.most b start ?_) later
      simp only [List.mem_cons, List.not_mem_nil, or_false, forall_eq_or_imp, forall_eq]
      exact ⟨soft.trans start, here⟩

theorem counted_addSoftClause (counted : Counted s (n + 1) (n + 1) n) (l l' : Int) (c : Clause)
    (w : Int) : ∃ k, Counted (s.addSoftClause (l :: l' :: c) w).2 (n + 1 + 1) (n + 1 + 1) k ∧
      Raised (l :: l' :: c) (n + 1) k ∧ (s.addSoftClause (l :: l' :: c) w).1 = (n + 1 : Nat) ∧
      (s.addSoftClause (l :: l' :: c) w).2.poids.weight = s.poids.weight ++ [i64 w.natAbs] := by
  have number : ∀ v e, (s.newSoftVar v e).1 = (n + 1 : Nat) := by
    intro v e
    exact congrArg (fun k : Nat => ((k + 1 : Nat) : Int)) counted.known
  unfold EvalMaxSAT.addSoftClause
  dsimp only
  by_cases pos : 0 < w
  · rw [if_pos pos]
    obtain ⟨k, after, raised⟩ := counted_addHardClause (counted_newSoftVar counted true w)
      (l :: l' :: c ++ [-(s.newSoftVar true w).1])
    have own : (-(s.newSoftVar true w).1).natAbs = n + 1 := by
      rw [number, Int.natAbs_neg, Int.natAbs_natCast]
    have split : ∀ b, n + 1 ≤ b → ((∀ a ∈ l :: l' :: c ++ [-(s.newSoftVar true w).1], a.natAbs ≤ b) ↔
        ∀ a ∈ l :: l' :: c, a.natAbs ≤ b) := by
      intro b start
      rw [List.forall_mem_append, List.forall_mem_singleton, own]
      exact and_iff_left start
    refine ⟨k, after, ⟨raised.least, raised.same.trans (split _ (Nat.le_refl _)),
      fun b start all => raised.most b start ((split b start).mpr all)⟩, number true w, ?_⟩
    rw [List.cons_append, List.cons_append, addHardClause_long, newSoftVar_entry, if_pos rfl,
      show w = (w.natAbs : Int) by omega]
    rfl
  · rw [if_neg pos]
    have own : (-(s.newSoftVar true (i64 (-w))).1).natAbs ≤ n + 1 := by
      rw [number, Int.natAbs_neg, Int.natAbs_natCast]
    obtain ⟨k, after, raised, poids⟩ := counted_foldl
      (counted_newSoftVar counted true (i64 (-w))) own (l :: l' :: c)
    refine ⟨k, after, raised, number true (i64 (-w)), ?_⟩
    rw [poids, newSoftVar_entry, if_pos rfl, show (w.natAbs : Int) = -w by omega, i64, i64,
      Int.bmod_bmod]

structure CountedCall (s : EvalMaxSAT K) (u : Update) (x : Int) (t : EvalMaxSAT K) : Prop where
  counted : ∃ p k, Counted t (p + 1) (p + 1) k ∧ p ≤ 2 ^ 31 ∧ k ≤ 2 ^ 31 ∧
    (k = p ∧ k < 2 ^ 31 ↔ Mentions s u)
  inside : Mentions s u → ∀ a ∈ accesses u s, WeightVector.index a.1 < a.2
  numbered : Mentions s u → Numbered s u x t

theorem natAbs_upto {l : Int} (range : l ≠ 0 ∧ -2 ^ 31 ≤ l ∧ l < 2 ^ 31) : l.natAbs ≤ 2 ^ 31 := by
  omega

theorem countedCall_hard (counted : Counted s (n + 1) (n + 1) n) (small : n < 2 ^ 31)
    {clause : Clause} (range : LitsInRange (.addClause clause none)) :
    CountedCall s (.addClause clause none) 0 (s.addHardClause clause) := by
  obtain ⟨k, after, raised⟩ := counted_addHardClause counted clause
  refine ⟨⟨n, k, after, small.le, raised.most _ small.le fun l mem => natAbs_upto (range l mem), ?_⟩,
    fun known => ?_, fun _ => ?_⟩
  · have mentions : Mentions s (.addClause clause none) ↔ k = n := by
      rw [raised.same, ← counted.known]
      rfl
    rw [mentions]
    omega
  · match clause, known with
    | [], _ => simp [accesses]
    | [lit], known =>
      have upto := known lit (by simp)
      rw [counted.known] at upto
      simp only [accesses, List.mem_singleton, forall_eq]
      rw [WeightVector.index_of_lt (by omega), counted.weights]
      omega
    | _ :: _ :: _, _ => simp [accesses]
  · match clause with
    | [] | [_] | _ :: _ :: _ => exact trivial

theorem countedCall_weight (counted : Counted s (n + 1) (n + 1) n) (small : n < 2 ^ 31) (u : Update)
    {lit : Int} (w : Int) (range : lit.natAbs ≤ 2 ^ 31) (known : Mentions s u ↔ lit.natAbs < 2 ^ 31)
    (numbered : Numbered s u 0 (s.addWeight lit w))
    (all : ∀ a ∈ accesses u s, a = (lit, (newVars (lit.natAbs + 1 - s.poids.size) s).poids.size)) :
    CountedCall s u 0 (s.addWeight lit w) := by
  have after := counted_addWeight counted lit w
  have more := counted_newVars counted (lit.natAbs + 1 - s.poids.size)
  refine ⟨⟨n + (lit.natAbs + 1 - (n + 1)), n + (lit.natAbs + 1 - (n + 1)), ?_, by omega, by omega,
    by rw [known]; omega⟩, fun mentions a mem => ?_, fun _ => numbered⟩
  · convert after using 1 <;> omega
  · rw [all a mem]
    dsimp only
    rw [WeightVector.index_of_lt (known.mp mentions), more.weights, counted.weights]
    omega

theorem countedCall_soft (counted : Counted s (n + 1) (n + 1) n) (small : n < 2 ^ 31)
    {clause : Clause} {w : Int} (nonzero : w ≠ 0) (range : LitsInRange (.addClause clause (some w))) :
    CountedCall s (.addClause clause (some w)) (s.addSoftClause clause w).1
      (s.addSoftClause clause w).2 := by
  match clause with
  | [] => exact ⟨⟨n, n, ⟨counted.weights, counted.entries, counted.known, counted.none_yet,
      counted.unsolved⟩, small.le, small.le, iff_of_true ⟨rfl, small⟩ trivial⟩, by simp [accesses],
      fun _ => trivial⟩
  | [lit] =>
    apply countedCall_weight counted small (.addClause [lit] (some w)) w (natAbs_upto (range lit (by simp)))
    · simp [Mentions, nonzero]
    · exact trivial
    · simp [accesses, nonzero]
  | l :: l' :: c =>
    obtain ⟨k, after, raised, number, entry⟩ := counted_addSoftClause counted l l' c w
    have upto := raised.most (2 ^ 31) (by omega) fun a mem => natAbs_upto (range a mem)
    have mentions : Mentions s (.addClause (l :: l' :: c) (some w)) ↔
        n + 1 < 2 ^ 31 ∧ k = n + 1 := by
      rw [raised.same, ← counted.known]
      simp [Mentions, nonzero]
    refine ⟨⟨n + 1, k, after, by omega, upto, ?_⟩, by simp [accesses], fun known _ => ?_⟩
    · rw [mentions]
      omega
    · rw [counted.weights, number, i32_of_nat (mentions.mp known).1]
      exact ⟨rfl, entry⟩

theorem countedCall_same (counted : Counted t (n + 1) (n + 1) n) (upto : n ≤ 2 ^ 31) {u : Update}
    (known : Mentions s u ↔ n < 2 ^ 31) (inside : accesses u s = [])
    (numbered : Mentions s u → Numbered s u x t) : CountedCall s u x t :=
  ⟨⟨n, n, counted, upto, upto, by rw [known]; omega⟩, fun _ => by simp [inside], numbered⟩

theorem countedCall_nothing (counted : Counted s (n + 1) (n + 1) n) (small : n < 2 ^ 31)
    (clause : Clause) (x : Int) : CountedCall s (.addClause clause (some 0)) x s := by
  apply countedCall_same counted small.le
  · refine iff_of_true ?_ small
    match clause with
    | [] | [_] | _ :: _ :: _ => simp [Mentions]
  · match clause with
    | [] | [_] | _ :: _ :: _ => simp [accesses]
  · match clause with
    | [] | [_] | _ :: _ :: _ => simp [Numbered]

theorem countedCall_apply (counted : Counted s (n + 1) (n + 1) n) (small : n < 2 ^ 31)
    (range : LitsInRange u) (applied : u.apply s = some (x, t)) : CountedCall s u x t := by
  have next : s.solver.nVar + 1 = s.poids.size := by
    rw [counted.weights, counted.known]
  cases u with
  | newVar =>
    simp only [Update.apply, Option.some.injEq] at applied
    have left : s.newVar.2 = t := congrArg Prod.snd applied
    rw [← left]
    exact countedCall_same (counted_newVars counted 1) small (by rw [← counted.known]; rfl) rfl
      fun _ => trivial
  | newSoftVar value w =>
    simp only [Update.apply, Option.some.injEq] at applied
    have returned : ((s.solver.nVar + 1 : Nat) : Int) = x := congrArg Prod.fst applied
    have left : (s.newSoftVar value w).2 = t := congrArg Prod.snd applied
    rw [← returned, ← left]
    refine countedCall_same (counted_newSoftVar counted value w) small (by rw [← counted.known]; rfl)
      rfl fun known => ⟨?_, newSoftVar_entry value w⟩
    rw [i32_of_nat known, next]
  | addClause clause w =>
    cases w with
    | none =>
      simp only [Update.apply, EvalMaxSAT.addClause, Option.some.injEq, Prod.mk.injEq] at applied
      rw [← applied.1, ← applied.2]
      exact countedCall_hard counted small range
    | some w =>
      by_cases nonzero : w = 0
      · simp only [Update.apply, EvalMaxSAT.addClause, if_pos nonzero, Option.some.injEq,
          Prod.mk.injEq] at applied
        rw [← applied.2, nonzero]
        exact countedCall_nothing counted small clause x
      · have call := addClause_some nonzero applied
        have soft := countedCall_soft counted small nonzero range
        rw [call] at soft
        exact soft
  | addWeight lit w =>
    simp only [Update.apply, Option.some.injEq, Prod.mk.injEq] at applied
    rw [← applied.1, ← applied.2]
    apply countedCall_weight counted small (.addWeight lit w) w (natAbs_upto range)
    · exact Iff.rfl
    · exact trivial
    · simp [accesses]
  | _ =>
    simp only [Update.apply, Option.some.injEq, Prod.mk.injEq] at applied
    have same : Counted t (n + 1) (n + 1) n := by
      rw [← applied.2]
      exact ⟨counted.weights, counted.entries, counted.known, counted.none_yet, counted.unsolved⟩
    exact countedCall_same same small.le (iff_of_true trivial small) rfl fun _ => trivial

/-- From counts that agree, a call keeps to them exactly when it mentions known variables. -/
theorem inStep_iff (counted : Counted s (n + 1) (n + 1) n) (small : n < 2 ^ 31) (range : LitsInRange u)
    (applied : u.apply s = some (x, t)) : InStep ⟨s, u, x, t⟩ ↔ Mentions s u := by
  obtain ⟨⟨p, k, after, table, known, same⟩, inside, numbered⟩ :=
    countedCall_apply counted small range applied
  constructor
  · intro ok
    exact same.mp ((aligned_iff after table known).mp ok.aligned)
  · intro mentions
    exact ⟨(aligned_iff after table known).mpr (same.mpr mentions), inside mentions, numbered mentions⟩

end Counts

section Sequences
variable {steps : List (CallStep K)}

theorem counted_calls (calls : Calls core steps s) (range : ∀ c ∈ steps, LitsInRange c.call)
    (ok : ∀ c ∈ steps, InStep c) : ∃ n < 2 ^ 31, Counted s (n + 1) (n + 1) n := by
  induction calls with
  | fresh => exact ⟨0, by decide, ⟨rfl, rfl, rfl, rfl, rfl⟩⟩
  | call calls applied ih =>
    simp only [List.mem_append, List.mem_singleton, or_imp, forall_and, forall_eq] at range ok
    obtain ⟨n, small, counted⟩ := ih range.1 ok.1
    obtain ⟨p, k, after, table, known, _⟩ := (countedCall_apply counted small range.2 applied).counted
    obtain ⟨rfl, inside⟩ := (aligned_iff after table known).mp ok.2.aligned
    exact ⟨k, inside, after⟩

/-- A sequence of calls keeps the numbers in step exactly when each call mentions only variables
that the back end knows, and makes none behind the largest `int`. -/
theorem calls_in_step (calls : Calls core steps s) (range : ∀ c ∈ steps, LitsInRange c.call) :
    (∀ c ∈ steps, InStep c) ↔ ∀ c ∈ steps, Mentions c.before c.call := by
  induction calls with
  | fresh => simp
  | call calls applied ih =>
    simp only [List.mem_append, List.mem_singleton, or_imp, forall_and, forall_eq] at range ⊢
    rw [ih range.1]
    refine and_congr_right fun known => ?_
    obtain ⟨n, small, counted⟩ := counted_calls calls range.1 ((ih range.1).mpr known)
    exact inStep_iff counted small range.2 applied

def stepsFrom (s : EvalMaxSAT K) : List Update → List (CallStep K)
  | [] => []
  | u :: us => match u.apply s with
    | none => []
    | some (x, t) => ⟨s, u, x, t⟩ :: stepsFrom t us

theorem calls_from (calls : Calls core steps s) (us : List Update) :
    ∃ t, Calls core (steps ++ stepsFrom s us) t := by
  induction us generalizing steps s with
  | nil => exact ⟨s, by rw [stepsFrom, List.append_nil]; exact calls⟩
  | cons u us ih =>
    rw [stepsFrom]
    cases applied : u.apply s with
    | none => exact ⟨s, by rw [List.append_nil]; exact calls⟩
    | some r =>
      obtain ⟨t, rest⟩ := ih (.call calls (show u.apply s = some (r.1, r.2) from applied))
      rw [List.append_assoc] at rest
      exact ⟨t, rest⟩

/-- Two variables, a hard and a soft clause over them, and a soft variable behind that of the soft
clause. -/
def knownScript : List Update :=
  [.newVar, .newVar, .addClause [1, -2] none, .addClause [1, 2] (some 5), .newSoftVar true 4,
    .addWeight (-2) 3]

theorem calls_in_step_small : (stepsFrom (fresh ()) knownScript).map CallStep.returned = [1, 2, 0, 3, 4, 0] ∧
    ∀ c ∈ stepsFrom (fresh ()) knownScript, InStep c := by
  have none_yet : Calls () [] (fresh ()) := .fresh
  obtain ⟨t, calls⟩ := calls_from none_yet knownScript
  rw [List.nil_append] at calls
  exact ⟨by decide +kernel, (calls_in_step calls (by decide +kernel)).mpr (by decide +kernel)⟩

/-- A hard clause on a variable that was never declared, then a soft variable: the clause reads
past the end of `_poids`, and the number returned for the soft variable is 6 while its weight
is the entry 1. -/
theorem undeclared_drifts : ¬ ∀ (steps : List (CallStep Unit)) (s : EvalMaxSAT Unit),
    Calls () steps s → (∀ c ∈ steps, LitsInRange c.call) → ∀ c ∈ steps, InStep c := by
  intro all
  have first : Calls () [⟨fresh (), .addClause [5] none, 0, (fresh ()).addHardClause [5]⟩]
      ((fresh ()).addHardClause [5]) := .call .fresh rfl
  have second := Calls.call (u := .newSoftVar true 7) first rfl
  have ok := all _ _ second (by simp [LitsInRange])
  have numbered := (ok _ (List.mem_append_right _ (List.mem_singleton.mpr rfl))).numbered
  exact absurd numbered.1 (by decide)

end Sequences
end EvalMaxSat
