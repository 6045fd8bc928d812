import Mathlib.Logic.Basic

/-!
# Runs of a labelled step function

`step s a = some u` is one step; `none` means the label is not enabled.
`Run step ok s as t` is a run through the labels `as`, all of whose steps
meet the side condition `ok` on the state before the step and the label.
`exec` is its executable form, so that a concrete run can be evaluated.
-/

namespace Runs

variable {σ α : Type} {step : σ → α → Option σ} {ok ok' : σ → α → Prop}

/-- A run from `s` to `t`, each step of which meets `ok`. -/
inductive Run (step : σ → α → Option σ) (ok : σ → α → Prop) : σ → List α → σ → Prop
  | nil (s : σ) : Run step ok s [] s
  | cons {s u t : σ} {a : α} {as : List α} :
      ok s a → step s a = some u → Run step ok u as t → Run step ok s (a :: as) t

/-- **The invariant rule**: what every admitted step preserves, every run
preserves. -/
theorem Run.invariant {I : σ → Prop}
    (hstep : ∀ s a u, I s → ok s a → step s a = some u → I u)
    {s t : σ} {as : List α} (hr : Run step ok s as t) (hs : I s) : I t := by
  induction hr with
  | nil => exact hs
  | cons hok hst _ ih => exact ih (hstep _ _ _ hs hok hst)

/-- The rule for a transitive relation between the two ends of a run. -/
theorem Run.related {R : σ → σ → Prop} {I : σ → Prop} (hrefl : ∀ s, R s s)
    (htrans : ∀ s u t, R s u → R u t → R s t)
    (hinv : ∀ s a u, I s → ok s a → step s a = some u → I u)
    (hstep : ∀ s a u, I s → ok s a → step s a = some u → R s u)
    {s t : σ} {as : List α} (hr : Run step ok s as t) (hs : I s) : R s t := by
  induction hr with
  | nil => exact hrefl _
  | cons hok hst _ ih =>
    exact htrans _ _ _ (hstep _ _ _ hs hok hst) (ih (hinv _ _ _ hs hok hst))

theorem Run.mono (h : ∀ s a, ok s a → ok' s a) {s t : σ} {as : List α}
    (hr : Run step ok s as t) : Run step ok' s as t := by
  induction hr with
  | nil => exact .nil _
  | cons hok hst _ ih => exact .cons (h _ _ hok) hst ih

/-- The labels of a run are known at each of its steps. -/
theorem Run.of_mem {s t : σ} {as : List α} (hr : Run step ok s as t) :
    Run step (fun s a => ok s a ∧ a ∈ as) s as t := by
  induction hr with
  | nil => exact .nil _
  | cons hok hst _ ih =>
    exact .cons ⟨hok, List.mem_cons_self⟩ hst
      (ih.mono fun _ _ h => ⟨h.1, List.mem_cons_of_mem _ h.2⟩)

/-- Two runs, one after the other. -/
theorem Run.append {s u t : σ} {as bs : List α} (h₁ : Run step ok s as u)
    (h₂ : Run step ok u bs t) : Run step ok s (as ++ bs) t := by
  induction h₁ with
  | nil => exact h₂
  | cons hok hst _ ih => exact .cons hok hst (ih h₂)

/-- A run through `as ++ bs` passes through a state between the two. -/
theorem Run.split {s t : σ} {as bs : List α} (h : Run step ok s (as ++ bs) t) :
    ∃ u, Run step ok s as u ∧ Run step ok u bs t := by
  induction as generalizing s with
  | nil => exact ⟨s, .nil s, h⟩
  | cons a as ih =>
    cases h with
    | cons hok hst hr =>
      obtain ⟨u, h₁, h₂⟩ := ih hr
      exact ⟨u, .cons hok hst h₁, h₂⟩

/-- **The variant rule**: if no step raises a measure and the steps of a
kind lower it, a run has at most so many of them. -/
theorem Run.countP_le {m : σ → Nat} {p : α → Bool}
    (hstep : ∀ s a u, ok s a → step s a = some u → m u + (if p a then 1 else 0) ≤ m s)
    {s t : σ} {as : List α} (hr : Run step ok s as t) : m t + as.countP p ≤ m s := by
  induction hr with
  | nil => simp
  | @cons s u t a as hok hst _ ih =>
    have hle := hstep _ _ _ hok hst
    rw [List.countP_cons]
    omega

section Exec
variable [∀ s a, Decidable (ok s a)]

/-- The run through `as` from `s`, if every step is enabled and admitted. -/
def exec (step : σ → α → Option σ) (ok : σ → α → Prop) [∀ s a, Decidable (ok s a)] :
    σ → List α → Option σ
  | s, [] => some s
  | s, a :: as =>
      if ok s a then
        match step s a with
        | some u => exec step ok u as
        | none => none
      else none

theorem run_of_exec {s t : σ} {as : List α} (h : exec step ok s as = some t) :
    Run step ok s as t := by
  induction as generalizing s with
  | nil =>
    cases h
    exact .nil _
  | cons a as ih =>
    simp only [exec] at h
    split at h
    · next hok =>
      split at h
      · next u hu => exact .cons hok hu (ih h)
      · cases h
    · cases h

/-- A run to a state with a decidable property is found by evaluation. -/
theorem exists_run {s : σ} {as : List α} {P : σ → Prop} [DecidablePred P]
    (h : ((exec step ok s as).map fun t => decide (P t)) = some true) :
    ∃ t, Run step ok s as t ∧ P t := by
  obtain ⟨t, ht, hp⟩ := Option.map_eq_some_iff.mp h
  exact ⟨t, run_of_exec ht, of_decide_eq_true hp⟩

/-- The same for a run in two parts and a property of where they end. -/
theorem exists_two_runs [∀ s a, Decidable (ok' s a)] {s : σ} {as bs : List α}
    {P : σ → σ → Prop} [∀ u t, Decidable (P u t)]
    (h : ((exec step ok s as).bind fun u =>
      (exec step ok' u bs).map fun t => decide (P u t)) = some true) :
    ∃ u t, Run step ok s as u ∧ Run step ok' u bs t ∧ P u t := by
  obtain ⟨u, hu, h⟩ := Option.bind_eq_some_iff.mp h
  obtain ⟨t, ht, hp⟩ := Option.map_eq_some_iff.mp h
  exact ⟨u, t, run_of_exec hu, run_of_exec ht, of_decide_eq_true hp⟩

/-- The same for a run and one more step, which need not be admitted. -/
theorem exists_run_step {s : σ} {as : List α} {a : α} {P : σ → σ → Prop}
    [∀ u t, Decidable (P u t)]
    (h : ((exec step ok s as).bind fun u => (step u a).map fun t => decide (P u t)) =
      some true) :
    ∃ u t, Run step ok s as u ∧ step u a = some t ∧ P u t := by
  obtain ⟨u, hu, h⟩ := Option.bind_eq_some_iff.mp h
  obtain ⟨t, ht, hp⟩ := Option.map_eq_some_iff.mp h
  exact ⟨u, t, run_of_exec hu, ht, of_decide_eq_true hp⟩

end Exec

end Runs
