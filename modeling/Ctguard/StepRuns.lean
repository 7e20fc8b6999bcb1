import Mathlib.Data.List.Induction

/-!
# Runs of a partial step function

A step may be impossible in a state. A run performs a list of steps in order, if each of
them is possible where it stands. What every step preserves holds after a run, and a
condition on the single steps is one on the whole run.
-/

namespace Ctguard

universe u v

variable {σ : Type u} {α : Type v} (step : σ → α → Option σ)

/-- The state after some steps, if they are possible. -/
def runSteps (s : σ) (xs : List α) : Option σ := xs.foldlM step s

/-- Every step of the run meets the condition in the state it is taken in. -/
def StepsMeet (C : σ → α → Prop) (s : σ) (xs : List α) : Prop :=
  ∀ pre x post t, xs = pre ++ x :: post → runSteps step s pre = some t → C t x

variable {step}

@[simp] theorem runSteps_nil (s : σ) : runSteps step s [] = some s := rfl

@[simp] theorem runSteps_cons (s : σ) (x : α) (xs : List α) :
    runSteps step s (x :: xs) = (step s x).bind fun t => runSteps step t xs := rfl

theorem runSteps_append (s : σ) (xs ys : List α) :
    runSteps step s (xs ++ ys) = (runSteps step s xs).bind fun t => runSteps step t ys := by
  simp [runSteps, List.foldlM_append]

theorem runSteps_concat {s t : σ} {xs : List α} {x : α} :
    runSteps step s (xs ++ [x]) = some t ↔
      ∃ u, runSteps step s xs = some u ∧ step u x = some t := by
  simp [runSteps_append, Option.bind_eq_some_iff]

/-- A run can be taken apart at any of its steps. -/
theorem runSteps_split {s t : σ} {pre post : List α} {x : α}
    (h : runSteps step s (pre ++ x :: post) = some t) :
    ∃ u v, runSteps step s pre = some u ∧ step u x = some v ∧ runSteps step v post = some t := by
  simpa [runSteps_append, Option.bind_eq_some_iff] using h

/-- What each step preserves holds after every run. -/
theorem runSteps_invariant {P : σ → Prop} (hstep : ∀ {u x v}, P u → step u x = some v → P v)
    {s t : σ} {xs : List α} (hs : P s) (h : runSteps step s xs = some t) : P t := by
  induction xs generalizing s with
  | nil => rwa [← Option.some.inj h]
  | cons x xs ih =>
    obtain ⟨u, hu, hrun⟩ := Option.bind_eq_some_iff.mp h
    exact ih (hstep hs hu) hrun

/-- What relates two states relates those after the same steps, if every step keeps it so. -/
theorem runSteps_rel {R : σ → σ → Prop}
    (hstep : ∀ {u v}, R u v → ∀ x, Option.Rel R (step u x) (step v x)) {s t : σ} (h : R s t)
    (xs : List α) : Option.Rel R (runSteps step s xs) (runSteps step t xs) := by
  induction xs generalizing s t with
  | nil => exact .some h
  | cons x xs ih =>
    have hx := hstep h x
    rw [runSteps_cons, runSteps_cons]
    cases hs : step s x with
    | none =>
      rw [hs] at hx
      cases ht : step t x with
      | none => exact .none
      | some v =>
        rw [ht] at hx
        cases hx
    | some u =>
      rw [hs] at hx
      cases ht : step t x with
      | none =>
        rw [ht] at hx
        cases hx
      | some v =>
        rw [ht] at hx
        cases hx with
        | some huv => exact ih huv

variable {C : σ → α → Prop}

@[simp] theorem stepsMeet_nil (s : σ) : StepsMeet step C s [] := by
  intro pre x post t h
  simp at h

theorem stepsMeet_concat {s : σ} {xs : List α} {x : α} :
    StepsMeet step C s (xs ++ [x]) ↔
      StepsMeet step C s xs ∧ ∀ t, runSteps step s xs = some t → C t x := by
  constructor
  · intro h
    refine ⟨?_, fun t ht => h xs x [] t rfl ht⟩
    rintro pre y post t rfl ht
    exact h pre y (post ++ [x]) t (by simp) ht
  · rintro ⟨hxs, hx⟩ pre y post t heq ht
    rcases List.eq_nil_or_concat post with rfl | ⟨post', z, rfl⟩
    · obtain ⟨rfl, hy⟩ := List.append_inj' heq rfl
      obtain rfl : x = y := by simpa using hy
      exact hx t ht
    · have hcut : xs ++ [x] = (pre ++ y :: post') ++ [z] := by simpa using heq
      obtain ⟨hpre, -⟩ := List.append_inj' hcut rfl
      exact hxs pre y post' t hpre ht

theorem stepsMeet_cons {s : σ} {x : α} {xs : List α} :
    StepsMeet step C s (x :: xs) ↔
      C s x ∧ ∀ t, step s x = some t → StepsMeet step C t xs := by
  constructor
  · intro h
    refine ⟨h [] x xs s rfl rfl, ?_⟩
    rintro t ht pre y post u rfl hu
    exact h (x :: pre) y post u rfl (by rw [runSteps_cons, ht]; exact hu)
  · rintro ⟨hx, hxs⟩ pre y post u heq hu
    cases pre with
    | nil =>
      obtain ⟨rfl, rfl⟩ := List.cons.inj heq
      obtain rfl := Option.some.inj hu
      exact hx
    | cons z pre =>
      obtain ⟨rfl, rfl⟩ := List.cons.inj heq
      obtain ⟨t, ht, hpre⟩ := Option.bind_eq_some_iff.mp hu
      exact hxs t ht pre y post u rfl hpre

variable (step) in
/-- Every step of a run passes a test. -/
def checkSteps (c : σ → α → Bool) : σ → List α → Bool
  | _, [] => true
  | s, x :: xs => c s x && match step s x with
    | none => true
    | some t => checkSteps c t xs

theorem stepsMeet_of_checkSteps {c : σ → α → Bool} (hc : ∀ {s x}, c s x = true → C s x)
    {s : σ} {xs : List α} (h : checkSteps step c s xs = true) : StepsMeet step C s xs := by
  induction xs generalizing s with
  | nil => exact stepsMeet_nil s
  | cons x xs ih =>
    rw [checkSteps, Bool.and_eq_true] at h
    refine stepsMeet_cons.mpr ⟨hc h.1, ?_⟩
    intro t ht
    have hrest := h.2
    rw [ht] at hrest
    exact ih hrest

/-- What each step that meets a condition preserves holds after a run of such steps. -/
theorem StepsMeet.invariant {P : σ → Prop}
    (hstep : ∀ {u x v}, P u → C u x → step u x = some v → P v)
    {s t : σ} {xs : List α} (hC : StepsMeet step C s xs) (hs : P s)
    (h : runSteps step s xs = some t) : P t := by
  induction xs using List.reverseRecOn generalizing t with
  | nil => rwa [← Option.some.inj h]
  | append_singleton xs x ih =>
    obtain ⟨u, hu, hx⟩ := runSteps_concat.mp h
    obtain ⟨hxs, hlast⟩ := stepsMeet_concat.mp hC
    exact hstep (ih hxs hu) (hlast u hu) hx

theorem stepsMeet_and {C' : σ → α → Prop} {s : σ} {xs : List α} :
    StepsMeet step (fun s x => C s x ∧ C' s x) s xs ↔
      StepsMeet step C s xs ∧ StepsMeet step C' s xs := by
  constructor
  · intro h
    exact ⟨fun pre x post t heq ht => (h pre x post t heq ht).1,
      fun pre x post t heq ht => (h pre x post t heq ht).2⟩
  · rintro ⟨h, h'⟩ pre x post t heq ht
    exact ⟨h pre x post t heq ht, h' pre x post t heq ht⟩

theorem stepsMeet_imp {p : Prop} {s : σ} {xs : List α} :
    StepsMeet step (fun s x => p → C s x) s xs ↔ (p → StepsMeet step C s xs) :=
  ⟨fun h hp pre x post t heq ht => h pre x post t heq ht hp,
    fun h pre x post t heq ht hp => h hp pre x post t heq ht⟩

/-- A property that a step preserves or destroys, by a condition on the step, holds after a run
exactly if all its steps meet the condition. -/
theorem stepsMeet_iff {I P : σ → Prop} (hI : ∀ {u x v}, I u → step u x = some v → I v)
    (hP : ∀ {u x v}, I u → step u x = some v → (P v ↔ P u ∧ C u x))
    {s t : σ} {xs : List α} (hs : I s) (hsP : P s) (h : runSteps step s xs = some t) :
    P t ↔ StepsMeet step C s xs := by
  induction xs using List.reverseRecOn generalizing t with
  | nil =>
    obtain rfl := Option.some.inj h
    exact iff_of_true hsP (stepsMeet_nil s)
  | append_singleton xs x ih =>
    obtain ⟨u, hu, hx⟩ := runSteps_concat.mp h
    rw [hP (runSteps_invariant hI hs hu) hx, ih hu, stepsMeet_concat]
    apply and_congr_right
    intro hxs
    constructor
    · intro hC t ht
      obtain rfl := Option.some.inj (hu.symm.trans ht)
      exact hC
    · exact fun hC => hC u hu

end Ctguard
