import Mathlib.Data.List.Nodup
import Mathlib.Data.List.Perm.Subperm

/-!
Cliques of a relation given by its answers, as duplicate-free lists, and the upper bounds a
branch and bound over them uses.
-/
namespace CliqueBounds
variable {V : Type} {adj : V → V → Bool} {R A : List V}

structure CliqueIn (adj : V → V → Bool) (R A : List V) : Prop where
  nodup : A.Nodup
  inside : A ⊆ R
  joined : ∀ a ∈ A, ∀ b ∈ A, a ≠ b → adj a b = true

def AtMost (adj : V → V → Bool) (R : List V) (n : Nat) : Prop :=
  ∀ A, CliqueIn adj R A → A.length ≤ n

theorem clique_mono {S : List V} (sub : R ⊆ S) (clique : CliqueIn adj R A) : CliqueIn adj S A :=
  ⟨clique.nodup, List.Subset.trans clique.inside sub, clique.joined⟩

theorem clique_singleton {v : V} (mem : v ∈ R) : CliqueIn adj R [v] := by
  refine ⟨List.nodup_singleton v, ?_, ?_⟩
  · intro a inA
    rw [List.mem_singleton.mp inA]
    exact mem
  · intro a inA b inB ne
    rw [List.mem_singleton.mp inA, List.mem_singleton.mp inB] at ne
    exact absurd rfl ne

theorem at_most_length (adj : V → V → Bool) (R : List V) : AtMost adj R R.length :=
  fun _ clique => (clique.nodup.subperm clique.inside).length_le

/-- A colouring of the members with the numbers from `1` to `k`, in which no two joined
members share a number. -/
theorem at_most_colors {k : Nat} (color : V → Nat)
    (proper : ∀ a ∈ R, ∀ b ∈ R, a ≠ b → color a = color b → adj a b = false ∨ adj b a = false)
    (positive : ∀ a ∈ R, 1 ≤ color a) (bound : ∀ a ∈ R, color a ≤ k) : AtMost adj R k := by
  intro A clique
  have distinct : (A.map color).Nodup := by
    refine clique.nodup.map_on ?_
    intro a inA b inB same
    by_contra ne
    rcases proper a (clique.inside inA) b (clique.inside inB) ne same with apart | apart
    · rw [clique.joined a inA b inB ne] at apart
      exact absurd apart (by decide)
    · rw [clique.joined b inB a inA (Ne.symm ne)] at apart
      exact absurd apart (by decide)
  have inside : A.map color ⊆ List.range' 1 k := by
    intro n mem
    obtain ⟨a, inA, rfl⟩ := List.mem_map.mp mem
    have low := positive a (clique.inside inA)
    have high := bound a (clique.inside inA)
    rw [List.mem_range'_1]
    omega
  have short := (distinct.subperm inside).length_le
  rwa [List.length_map, List.length_range'] at short

section Neighbors
variable [DecidableEq V] {v : V}

theorem clique_erase (member : v ∈ A) (clique : CliqueIn adj R A) :
    CliqueIn adj (R.filter fun a => a ≠ v ∧ adj v a = true) (A.erase v) := by
  have others : ∀ a ∈ A.erase v, a ∈ A ∧ a ≠ v := by
    intro a mem
    exact ⟨List.mem_of_mem_erase mem, (clique.nodup.mem_erase_iff.mp mem).1⟩
  constructor
  · exact clique.nodup.erase v
  · intro a mem
    obtain ⟨inA, ne⟩ := others a mem
    have edge := clique.joined v member a inA (Ne.symm ne)
    simp [clique.inside inA, ne, edge]
  · intro a inA b inB ne
    exact clique.joined a (others a inA).1 b (others b inB).1 ne

theorem clique_split (clique : CliqueIn adj (R ++ [v]) A) :
    CliqueIn adj R A ∨ v ∈ A ∧ CliqueIn adj (R.filter (adj v)) (A.erase v) := by
  by_cases member : v ∈ A
  · right
    refine ⟨member, clique_mono ?_ (clique_erase member clique)⟩
    intro a mem
    simp only [List.mem_filter, List.mem_append, List.mem_singleton, decide_eq_true_eq] at mem ⊢
    tauto
  · left
    refine ⟨clique.nodup, ?_, clique.joined⟩
    intro a inA
    rcases List.mem_append.mp (clique.inside inA) with old | new
    · exact old
    · rw [List.mem_singleton.mp new] at inA
      exact absurd inA member

theorem at_most_degrees {d : Nat} (degree : ∀ v ∈ R, (R.filter (adj v)).length ≤ d) :
    AtMost adj R (d + 1) := by
  intro A clique
  cases A with
  | nil => simp
  | cons v A =>
    have member : v ∈ v :: A := by simp
    have rest := clique_erase member clique
    rw [List.erase_cons_head] at rest
    have inside : A ⊆ R.filter (adj v) := by
      intro a inA
      have mem := rest.inside inA
      simp only [List.mem_filter, decide_eq_true_eq] at mem ⊢
      exact ⟨mem.1, mem.2.2⟩
    have short := (rest.nodup.subperm inside).length_le
    have few := degree v (clique.inside member)
    simp only [List.length_cons]
    omega

end Neighbors
end CliqueBounds
