import Mathlib.Tactic

/-!
Machines whose steps give an output and may be refused. Two of them that answer each operation
alike answer every sequence of operations alike.
-/
namespace PartialMachines

variable {σ τ ι ω : Type}

/-- The outputs of a sequence of operations; `none` if one of them is refused. -/
def runs (step : ι → σ → Option (ω × σ)) : List ι → σ → Option (List ω)
  | [], _ => some []
  | i :: is, s => do
    let r ← step i s
    let rest ← runs step is r.2
    return r.1 :: rest

/-- Both refuse, or both answer the same and stay related. -/
inductive SameStep (R : σ → τ → Prop) : Option (ω × σ) → Option (ω × τ) → Prop
  | refused : SameStep R none none
  | answered (o : ω) {s : σ} {t : τ} : R s t → SameStep R (some (o, s)) (some (o, t))

theorem runs_agree {R : σ → τ → Prop} {step : ι → σ → Option (ω × σ)}
    {step' : ι → τ → Option (ω × τ)} {is : List ι}
    (each : ∀ i ∈ is, ∀ s t, R s t → SameStep R (step i s) (step' i t)) {s : σ} {t : τ}
    (related : R s t) : runs step is s = runs step' is t := by
  induction is generalizing s t with
  | nil => rfl
  | cons i is ih =>
    have first := each i List.mem_cons_self s t related
    unfold runs
    generalize step i s = x at first
    generalize step' i t = y at first
    cases first with
    | refused => rfl
    | answered o next =>
      have rest := ih (fun j mem => each j (List.mem_cons_of_mem i mem)) next
      simp only [Option.bind_eq_bind, Option.bind_some, rest]

theorem runs_cons {step : ι → σ → Option (ω × σ)} {i : ι} {is : List ι} {s : σ} {outs : List ω}
    (run : runs step (i :: is) s = some outs) :
    ∃ o t rest, step i s = some (o, t) ∧ runs step is t = some rest ∧ outs = o :: rest := by
  unfold runs at run
  rcases first : step i s with _ | ⟨o, t⟩
  · simp [first] at run
  · rcases rest : runs step is t with _ | others
    · simp [first, rest] at run
    · exact ⟨o, t, others, rfl, rest, by simpa [first, rest] using run.symm⟩

/-- What holds of the operations so far and the state, if every operation that is not refused keeps
it, holds before the last operation of a run. -/
theorem runs_last {Good : List ι → σ → Prop} {step : ι → σ → Option (ω × σ)}
    (each : ∀ past i s o t, Good past s → step i s = some (o, t) → Good (past ++ [i]) t)
    {past is : List ι} {i : ι} {s : σ} {outs : List ω} (good : Good past s)
    (run : runs step (is ++ [i]) s = some outs) :
    ∃ t o u, Good (past ++ is) t ∧ step i t = some (o, u) ∧ outs.getLast? = some o := by
  induction is generalizing past s outs with
  | nil =>
    obtain ⟨o, t, rest, first, nothing, rfl⟩ := runs_cons run
    cases nothing
    rw [List.append_nil]
    exact ⟨s, o, t, good, first, rfl⟩
  | cons j is ih =>
    obtain ⟨p, t, rest, first, others, rfl⟩ := runs_cons run
    obtain ⟨v, o, u, final, answer, last⟩ := ih (each past j s p t good first) others
    rw [List.append_assoc, List.singleton_append] at final
    rw [List.getLast?_cons, last]
    exact ⟨v, o, u, final, answer, rfl⟩

end PartialMachines
