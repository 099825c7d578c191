import EvalMaxSat.Replays

/-!
Weights on single literals, in any order: each variable ends with the difference of what was put
on its two literals, and the cost has taken what they have in common.
-/
namespace EvalMaxSat
open Literals OrderedContainers EvalMaxSAT

variable {K : Type} {s t : EvalMaxSAT K} {cs ds : List (Int × Int)} {c : Int × Int} {l : Int} {n : Nat}

/-- The literal that `addWeight(lit, weight)` puts weight on. -/
def weightedLit (c : Int × Int) : Int := if c.2 < 0 then -c.1 else c.1

def putOn (cs : List (Int × Int)) (l : Int) : Nat :=
  (cs.map fun c => if weightedLit c = l then c.2.natAbs else 0).sum

def absoluteTotal (cs : List (Int × Int)) : Nat := (cs.map fun c => c.2.natAbs).sum

def callVars (cs : List (Int × Int)) : Finset Nat := (cs.map fun c => c.1.natAbs).toFinset

/-- What the two literals of each variable have in common. -/
def overlap (vars : Finset Nat) (cs : List (Int × Int)) : Nat :=
  ∑ v ∈ vars, min (putOn cs v) (putOn cs (-v))

def addWeights (cs : List (Int × Int)) (s : EvalMaxSAT K) : EvalMaxSAT K :=
  cs.foldl (fun s c => s.addWeight c.1 c.2) s

/-- The entries are in the range of the machine, and the index holds the soft literals. -/
structure Books (s : EvalMaxSAT K) : Prop where
  bounded : s.poids.Bounded
  zero : s.weight 0 = 0
  indexed : Indexes s.mapWeight2Assum s.weight
  word : s.cost < 2 ^ 64

theorem books_of_sane (sane : Sane s) : Books s :=
  ⟨sane.wf.poids_bounded, sane.wf.zero, sane.wf.indexed, sane.word⟩

theorem books_neg (books : Books s) (l : Int) : s.weight (-l) = -s.weight l := by
  by_cases zero : l = 0
  · rw [zero, neg_zero, books.zero]
    rfl
  · exact WeightVector.get_neg books.bounded zero

section Sums

theorem putOn_append (cs : List (Int × Int)) (c : Int × Int) (l : Int) :
    putOn (cs ++ [c]) l = putOn cs l + if weightedLit c = l then c.2.natAbs else 0 := by
  simp [putOn]

theorem putOn_perm (perm : cs.Perm ds) (l : Int) : putOn cs l = putOn ds l :=
  (perm.map _).sum_eq

theorem putOn_both (nonzero : l ≠ 0) (cs : List (Int × Int)) :
    putOn cs l + putOn cs (-l) ≤ absoluteTotal cs := by
  induction cs with
  | nil => exact Nat.le_refl _
  | cons c cs ih =>
    simp only [putOn, absoluteTotal, List.map_cons, List.sum_cons] at ih ⊢
    by_cases here : weightedLit c = l
    · rw [if_pos here, if_neg (by omega)]
      omega
    · rw [if_neg here]
      split <;> omega

theorem putOn_other (other : ∀ c ∈ cs, c.1.natAbs ≠ l.natAbs) : putOn cs l = 0 := by
  induction cs with
  | nil => rfl
  | cons c cs ih =>
    have here := other c (by simp)
    have rest := ih fun d mem => other d (by simp [mem])
    simp only [putOn, List.map_cons, List.sum_cons] at rest ⊢
    rw [rest, if_neg]
    simp only [weightedLit]
    split <;> omega

theorem weightedLit_natAbs (c : Int × Int) : (weightedLit c).natAbs = c.1.natAbs := by
  simp only [weightedLit]
  split <;> omega

theorem overlap_append {vars : Finset Nat} (here : c.1.natAbs ∈ vars) (nonzero : c.1 ≠ 0) :
    overlap vars (cs ++ [c]) = overlap vars cs +
      common ((putOn cs (weightedLit c) : Int) - putOn cs (-weightedLit c)) c.2.natAbs := by
  have abs := weightedLit_natAbs c
  have one : ∀ v ∈ vars, min (putOn (cs ++ [c]) v) (putOn (cs ++ [c]) (-v)) =
      min (putOn cs v) (putOn cs (-v)) + if v = c.1.natAbs then
        common ((putOn cs (weightedLit c) : Int) - putOn cs (-weightedLit c)) c.2.natAbs else 0 := by
    intro v _
    rw [putOn_append, putOn_append]
    simp only [common]
    rcases Int.natAbs_eq (weightedLit c) with pos | neg
    · rw [abs] at pos
      rw [pos]
      by_cases same : v = c.1.natAbs
      · rw [same, if_pos rfl, if_neg (by omega), if_pos rfl]
        split <;> omega
      · rw [if_neg (by omega), if_neg (by omega), if_neg same, Nat.add_zero, Nat.add_zero, Nat.add_zero]
    · rw [abs] at neg
      rw [neg, neg_neg]
      by_cases same : v = c.1.natAbs
      · rw [same, if_neg (by omega), if_pos rfl, if_pos rfl]
        split <;> omega
      · rw [if_neg (by omega), if_neg (by omega), if_neg same, Nat.add_zero, Nat.add_zero, Nat.add_zero]
  rw [overlap, Finset.sum_congr rfl one, Finset.sum_add_distrib, Finset.sum_ite_eq', if_pos here]
  rfl

end Sums

section Calls
variable {lit w : Int}

theorem get_append_zero (poids : WeightVector) (l : Int) : (poids.pushBack 0).get l = poids.get l := by
  have entry : (poids.weight ++ [0]).getD l.natAbs 0 = poids.weight.getD l.natAbs 0 := by
    by_cases inside : l.natAbs < poids.weight.length
    · rw [List.getD_append _ _ _ _ inside]
    · rw [List.getD_append_right _ _ _ _ (by omega), List.getD_eq_default poids.weight 0 (by omega)]
      cases l.natAbs - poids.weight.length <;> rfl
  rw [WeightVector.get, WeightVector.get, WeightVector.pushBack, entry]

theorem bounded_append_zero {poids : WeightVector} (bounded : poids.Bounded) :
    (poids.pushBack 0).Bounded := by
  intro i
  have entry := get_append_zero poids i
  rw [WeightVector.get, WeightVector.get, if_neg (by omega), if_neg (by omega),
    Int.natAbs_natCast] at entry
  rw [entry]
  exact bounded i

structure Extended (s t : EvalMaxSAT K) : Prop where
  weight : t.weight = s.weight
  bounded : s.poids.Bounded → t.poids.Bounded
  index : t.mapWeight2Assum = s.mapWeight2Assum
  cost : t.cost = s.cost
  entries : ∀ v, t.cardOf v = s.cardOf v

theorem newVars_extended (n : Nat) (s : EvalMaxSAT K) :
    Extended s (newVars n s) ∧ (newVars n s).poids.size = s.poids.size + n := by
  induction n generalizing s with
  | zero => exact ⟨⟨rfl, id, rfl, rfl, fun _ => rfl⟩, rfl⟩
  | succ n ih =>
    obtain ⟨rest, size⟩ := ih s.newVar.2
    have weight : s.newVar.2.weight = s.weight := funext fun l => get_append_zero s.poids l
    refine ⟨⟨rest.weight.trans weight, ?_, rest.index, rest.cost, ?_⟩, ?_⟩
    · intro bounded
      exact rest.bounded (bounded_append_zero bounded)
    · intro v
      refine (rest.entries v).trans ?_
      change (s.mapAssum2Card ++ [none]).getD v none = s.mapAssum2Card.getD v none
      by_cases inside : v < s.mapAssum2Card.length
      · rw [List.getD_append _ _ _ _ inside]
      · rw [List.getD_append_right _ _ _ _ (by omega), List.getD_eq_default s.mapAssum2Card none (by omega)]
        cases v - s.mapAssum2Card.length <;> rfl
    · rw [newVars, size]
      change (s.poids.weight ++ [0]).length + n = s.poids.weight.length + (n + 1)
      rw [List.length_append]
      simp only [List.length_cons, List.length_nil]
      omega

theorem books_extended (books : Books s) (extended : Extended s t) : Books t where
  bounded := extended.bounded books.bounded
  zero := by rw [extended.weight]; exact books.zero
  indexed := by rw [extended.weight, extended.index]; exact books.indexed
  word := by rw [extended.cost]; exact books.word

structure Shifted (c : Int × Int) (s t : EvalMaxSAT K) : Prop where
  books : Books t
  weight : t.weight = reweigh s.weight (weightedLit c) (s.weight (weightedLit c) + c.2.natAbs)
  cost : t.cost = u64 (s.cost + common (s.weight (weightedLit c)) c.2.natAbs)
  entries : ∀ v, t.cardOf v = s.cardOf v

theorem addPositiveWeight_shifted {w : Nat} (books : Books s) (entry : s.cardOf lit.natAbs = none)
    (nonzero : lit ≠ 0) (inside : lit.natAbs < s.poids.size) (pos : 0 < w) (small : w < 2 ^ 63)
    (range : (s.weight lit + w).natAbs < 2 ^ 63) : Shifted (lit, w) s (s.addPositiveWeight lit w) := by
  have side : weightedLit (lit, (w : Int)) = lit := if_neg (by simp)
  have old := WeightVector.get_range books.bounded lit
  have index := indexes_move (x := s.weight lit + w) books.indexed (books_neg books) nonzero old range
  rw [addPositiveWeight_eq books.bounded entry nonzero inside pos range small]
  have weight : ∀ m : WeightMap, (s.putWeight lit (s.weight lit + w) m).weight =
      reweigh s.weight lit (s.weight lit + w) :=
    fun m => funext fun l => WeightVector.get_set books.bounded range inside nonzero l
  refine ⟨⟨WeightVector.bounded_set books.bounded range inside, ?_, ?_, ?_⟩, ?_, ?_, fun _ => rfl⟩
  · refine (congrFun (weight OMap.empty) 0).trans ?_
    rw [reweigh, if_neg (Ne.symm nonzero), if_neg (by omega)]
    exact books.zero
  · rw [← weight OMap.empty] at index
    exact index
  · change (if s.weight lit < 0 then u64 (s.cost + common (s.weight lit) w) else s.cost) < 2 ^ 64
    split
    · exact u64_lt _
    · exact books.word
  · rw [side]
    exact weight OMap.empty
  · change (if s.weight lit < 0 then u64 (s.cost + common (s.weight lit) w) else s.cost) = _
    rw [side]
    split
    · rfl
    · rename_i nonneg
      simp only [common, if_neg nonneg, Nat.cast_zero, Int.add_zero]
      rw [u64_of_nat books.word]

theorem addWeight_shifted (books : Books s) (entry : s.cardOf lit.natAbs = none) (nonzero : lit ≠ 0)
    (some : w ≠ 0) (small : w.natAbs < 2 ^ 63)
    (range : (s.weight (weightedLit (lit, w)) + w.natAbs).natAbs < 2 ^ 63) :
    Shifted (lit, w) s (s.addWeight lit w) := by
  obtain ⟨extended, size⟩ := newVars_extended (lit.natAbs + 1 - s.poids.size) s
  have call : s.addWeight lit w = (newVars (lit.natAbs + 1 - s.poids.size) s).addPositiveWeight
      (weightedLit (lit, w)) w.natAbs := by
    simp only [EvalMaxSAT.addWeight, weightedLit]
    split
    · rw [i64_of_range (by omega) (by omega)]
      congr 1
      omega
    · congr 1
      omega
  have abs := weightedLit_natAbs (lit, w)
  simp only at abs
  rw [call]
  have shifted : Shifted (weightedLit (lit, w), (w.natAbs : Int))
      (newVars (lit.natAbs + 1 - s.poids.size) s) _ :=
    addPositiveWeight_shifted (books_extended books extended)
      (by rw [abs, extended.entries]; exact entry) (by omega) (by omega) (by omega) small
      (by rw [extended.weight]; exact range)
  have side : weightedLit (weightedLit (lit, w), (w.natAbs : Int)) = weightedLit (lit, w) :=
    if_neg (by simp)
  refine ⟨shifted.books, ?_, ?_, fun v => (shifted.entries v).trans (extended.entries v)⟩
  · rw [shifted.weight, side, extended.weight]
    rfl
  · rw [shifted.cost, side, extended.weight, extended.cost]
    rfl

end Calls

section Sequences

/-- The calls `cs` lead from `s` to `t`: the closed form of their effect. -/
structure Tallied (vars : Finset Nat) (cs : List (Int × Int)) (s t : EvalMaxSAT K) : Prop where
  books : Books t
  weight : ∀ l, l ≠ 0 → t.weight l = s.weight l + putOn cs l - putOn cs (-l)
  cost : t.cost = u64 (s.cost + overlap vars cs)
  entries : ∀ v, t.cardOf v = s.cardOf v

def Unweighted (cs : List (Int × Int)) (s : EvalMaxSAT K) : Prop :=
  ∀ c ∈ cs, c.1 ≠ 0 ∧ c.2 ≠ 0 ∧ s.weight c.1 = 0 ∧ s.cardOf c.1.natAbs = none

instance (cs : List (Int × Int)) (s : EvalMaxSAT K) : Decidable (Unweighted cs s) :=
  inferInstanceAs (Decidable (∀ c ∈ cs, _))

theorem tallied_nil {vars : Finset Nat} (books : Books s) : Tallied vars [] s s := by
  refine ⟨books, fun l _ => ?_, ?_, fun _ => rfl⟩
  · simp [putOn]
  · simp only [overlap, putOn, List.map_nil, List.sum_nil, min_self, Finset.sum_const_zero,
      Nat.cast_zero, Int.add_zero]
    rw [u64_of_nat books.word]

theorem tallied_step {vars : Finset Nat} (books : Books s) (tallied : Tallied vars cs s t)
    (here : c.1.natAbs ∈ vars) (nonzero : c.1 ≠ 0) (some : c.2 ≠ 0) (unweighted : s.weight c.1 = 0)
    (entry : s.cardOf c.1.natAbs = none) (small : absoluteTotal (cs ++ [c]) < 2 ^ 63) :
    Tallied vars (cs ++ [c]) s (t.addWeight c.1 c.2) := by
  have abs := weightedLit_natAbs c
  have start : s.weight (weightedLit c) = 0 := by
    simp only [weightedLit]
    split
    · rw [books_neg books, unweighted]
      rfl
    · exact unweighted
  have before := tallied.weight (weightedLit c) (by omega)
  rw [start, zero_add] at before
  have both := putOn_both (by omega : weightedLit c ≠ 0) cs
  have more : absoluteTotal (cs ++ [c]) = absoluteTotal cs + c.2.natAbs := by simp [absoluteTotal]
  have shifted := addWeight_shifted tallied.books (by rw [tallied.entries]; exact entry) nonzero some
    (by omega) (by rw [before]; omega)
  refine ⟨shifted.books, ?_, ?_, fun v => (shifted.entries v).trans (tallied.entries v)⟩
  · intro l nonzeroL
    rw [shifted.weight, putOn_append, putOn_append]
    simp only [reweigh]
    have old := tallied.weight l nonzeroL
    by_cases same : l = weightedLit c
    · rw [if_pos same, if_pos same.symm, if_neg (by omega), before, same, start]
      push_cast
      omega
    · rw [if_neg same, if_neg (Ne.symm same)]
      by_cases opposite : l = -weightedLit c
      · rw [if_pos opposite, if_pos (by omega), before, opposite, neg_neg, books_neg books, start]
        push_cast
        omega
      · rw [if_neg opposite, if_neg (by omega), old]
        push_cast
        omega
  · rw [shifted.cost, tallied.cost, before, overlap_append here nonzero, u64_add]
    congr 1
    push_cast
    omega

theorem addWeights_tallied {vars : Finset Nat} (books : Books s) (tallied : Tallied vars ds s t)
    (free : Unweighted cs s) (here : ∀ c ∈ cs, c.1.natAbs ∈ vars)
    (small : absoluteTotal (ds ++ cs) < 2 ^ 63) : Tallied vars (ds ++ cs) s (addWeights cs t) := by
  induction cs generalizing ds t with
  | nil =>
    rw [List.append_nil]
    exact tallied
  | cons c cs ih =>
    obtain ⟨nonzero, some, unweighted, entry⟩ := free c (by simp)
    have total : absoluteTotal (ds ++ [c]) ≤ absoluteTotal (ds ++ c :: cs) := by
      simp [absoluteTotal]
    have next := tallied_step books tallied (here c (by simp)) nonzero some unweighted entry (by omega)
    have rest := ih next (fun d mem => free d (by simp [mem])) (fun d mem => here d (by simp [mem]))
      (by rw [List.append_assoc]; exact small)
    rw [List.append_assoc] at rest
    exact rest

theorem mem_callVars : n ∈ callVars cs ↔ ∃ c ∈ cs, c.1.natAbs = n := by
  rw [callVars, List.mem_toFinset, List.mem_map]

theorem tallied_all (books : Books s) (free : Unweighted cs s) (small : absoluteTotal cs < 2 ^ 63) :
    Tallied (callVars cs) cs s (addWeights cs s) :=
  addWeights_tallied books (tallied_nil books) free (fun c mem => mem_callVars.mpr ⟨c, mem, rfl⟩) small

theorem tallied_perm (books : Books s) (free : Unweighted cs s) (small : absoluteTotal cs < 2 ^ 63)
    (perm : cs.Perm ds) : (addWeights ds s).cost = (addWeights cs s).cost ∧
      (addWeights ds s).weight = (addWeights cs s).weight := by
  have left := tallied_all books free small
  have total : absoluteTotal ds = absoluteTotal cs := (perm.map _).sum_eq.symm
  have right : Tallied (callVars ds) ds s (addWeights ds s) :=
    tallied_all books (fun c mem => free c (perm.symm.subset mem)) (by rw [total]; exact small)
  have vars : callVars ds = callVars cs := by
    apply Finset.ext
    intro v
    simp only [mem_callVars, perm.mem_iff]
  have put : putOn ds = putOn cs := funext fun l => (putOn_perm perm l).symm
  constructor
  · rw [right.cost, left.cost, vars]
    simp only [overlap, put]
  · funext l
    by_cases zero : l = 0
    · rw [zero, right.books.zero, left.books.zero]
    · rw [right.weight l zero, left.weight l zero, put]

/-- The closed form of any sequence of calls, and that their order does not matter. -/
theorem addWeights_commute (books : Books s) (free : Unweighted cs s)
    (small : absoluteTotal cs < 2 ^ 63) :
    (∀ c ∈ cs, (addWeights cs s).weight c.1 = (putOn cs c.1 : Int) - putOn cs (-c.1)) ∧
    (∀ l, (∀ c ∈ cs, c.1.natAbs ≠ l.natAbs) → (addWeights cs s).weight l = s.weight l) ∧
    (addWeights cs s).cost = u64 (s.cost + overlap (callVars cs) cs) ∧
    Indexes (addWeights cs s).mapWeight2Assum (addWeights cs s).weight ∧
    ∀ ds, cs.Perm ds → (addWeights ds s).cost = (addWeights cs s).cost ∧
      (addWeights ds s).weight = (addWeights cs s).weight ∧
      ∀ l w, InBucket (addWeights ds s).mapWeight2Assum w l ↔
        InBucket (addWeights cs s).mapWeight2Assum w l := by
  have tallied := tallied_all books free small
  refine ⟨fun c mem => ?_, fun l other => ?_, tallied.cost, tallied.books.indexed, fun ds perm => ?_⟩
  · obtain ⟨nonzero, _, unweighted, _⟩ := free c mem
    rw [tallied.weight c.1 nonzero, unweighted, zero_add]
  · by_cases zero : l = 0
    · rw [zero, tallied.books.zero, books.zero]
    · have none := putOn_other (l := l) other
      have none' := putOn_other (l := -l) fun c mem => by
        rw [Int.natAbs_neg]
        exact other c mem
      rw [tallied.weight l zero, none, none', Nat.cast_zero, Int.add_zero, Int.sub_zero]
  · obtain ⟨cost, weight⟩ := tallied_perm books free small perm
    refine ⟨cost, weight, fun l w => ?_⟩
    have total : absoluteTotal ds = absoluteTotal cs := (perm.map _).sum_eq.symm
    have right : Tallied (callVars ds) ds s (addWeights ds s) :=
      tallied_all books (fun c mem => free c (perm.symm.subset mem)) (by rw [total]; exact small)
    rw [right.books.indexed l w, tallied.books.indexed l w, weight]

theorem addWeights_commute_small :
    (addWeights [(1, 5), (-1, 3), (2, -4), (3, 1)] (newVars 2 (fresh ()))).cost = 3 ∧
      (addWeights [(3, 1), (2, -4), (-1, 3), (1, 5)] (newVars 2 (fresh ()))).weight =
        (addWeights [(1, 5), (-1, 3), (2, -4), (3, 1)] (newVars 2 (fresh ()))).weight := by
  have fresh_books : Books (fresh ()) := books_of_sane (between_fresh ()).sane
  obtain ⟨_, _, cost, _, orders⟩ := @addWeights_commute _ _ [(1, 5), (-1, 3), (2, -4), (3, 1)]
    (books_extended fresh_books (newVars_extended 2 _).1) (by decide) (by decide)
  exact ⟨cost.trans (by decide), (orders _ (by decide)).2.1⟩

end Sequences
end EvalMaxSat
