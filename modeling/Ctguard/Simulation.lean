import Ctguard.StepRuns

/-!
# Simulation of runs

One system simulates another one, if each step of the other is some steps of its own with which the
same can be seen. What decreases with each step bounds the length of a run.
-/

namespace Ctguard

universe u v w

section Traces

variable {σ : Type u} {α : Type v} {ε : Type w} (step : σ → α → Option σ) (see : σ → α → List ε)

/-- What can be seen of a run. -/
def trace : σ → List α → List ε
  | _, [] => []
  | s, x :: xs => see s x ++ match step s x with
    | none => []
    | some t => trace t xs

variable {step see} {s t : σ} {x : α}

@[simp] theorem trace_nil : trace step see s [] = [] := rfl

theorem trace_cons (h : step s x = some t) (xs : List α) :
    trace step see s (x :: xs) = see s x ++ trace step see t xs := by
  rw [trace, h]

theorem trace_append {xs : List α} (h : runSteps step s xs = some t) (ys : List α) :
    trace step see s (xs ++ ys) = trace step see s xs ++ trace step see t ys := by
  induction xs generalizing s with
  | nil =>
    rw [← Option.some.inj h]
    rfl
  | cons x xs ih =>
    obtain ⟨u, hu, hrun⟩ := Option.bind_eq_some_iff.mp h
    rw [List.cons_append, trace_cons hu, trace_cons hu, ih hrun, List.append_assoc]

end Traces

section Simulation

variable {σ σ' : Type u} {α α' : Type v} {ε : Type w} {step : σ → α → Option σ}
  {see : σ → α → List ε} {step' : σ' → α' → Option σ'} {see' : σ' → α' → List ε}

/-- Steps that are simulated make runs that are simulated. -/
theorem runSteps_simulated {I : σ → Prop} (abs : σ → σ')
    (hkeep : ∀ {s x t}, I s → step s x = some t → I t)
    (hstep : ∀ {s x t}, I s → step s x = some t → ∃ ys,
      runSteps step' (abs s) ys = some (abs t) ∧ trace step' see' (abs s) ys = see s x)
    {s t : σ} {xs : List α} (hs : I s) (h : runSteps step s xs = some t) :
    ∃ ys, runSteps step' (abs s) ys = some (abs t) ∧
      trace step' see' (abs s) ys = trace step see s xs := by
  induction xs generalizing s with
  | nil =>
    rw [← Option.some.inj h]
    exact ⟨[], rfl, rfl⟩
  | cons x xs ih =>
    obtain ⟨u, hu, hrun⟩ := Option.bind_eq_some_iff.mp h
    obtain ⟨ys, hys, hseen⟩ := hstep hs hu
    obtain ⟨zs, hzs, hrest⟩ := ih (hkeep hs hu) hrun
    refine ⟨ys ++ zs, ?_, ?_⟩
    · rw [runSteps_append, hys]
      exact hzs
    · rw [trace_append hys, hseen, hrest, trace_cons hu]

/-- A run is not longer than what each of its steps decreases. -/
theorem runSteps_length {I : σ → Prop} {m : σ → ℕ}
    (hkeep : ∀ {s x t}, I s → step s x = some t → I t)
    (hless : ∀ {s x t}, I s → step s x = some t → m t < m s) {s t : σ} {xs : List α} (hs : I s)
    (h : runSteps step s xs = some t) : xs.length + m t ≤ m s := by
  induction xs generalizing s with
  | nil =>
    rw [← Option.some.inj h]
    exact Nat.le_of_eq (Nat.zero_add (m s))
  | cons x xs ih =>
    obtain ⟨u, hu, hrun⟩ := Option.bind_eq_some_iff.mp h
    have hrest := ih (hkeep hs hu) hrun
    have hfirst := hless hs hu
    rw [List.length_cons]
    omega

end Simulation

end Ctguard
